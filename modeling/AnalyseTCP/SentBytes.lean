import AnalyseTCP.SentState
import Mathlib.Order.Interval.Finset.Nat

/-!
# Sent-byte accounting

Every byte that `registerSent` accepts is charged to exactly one of new data, bundled data and
retransmissions.  The source decides with `lastLargestStartSeq`, the start of the last data packet,
which need not be the largest; that it lies below `lastLargestEndSeq` is the invariant that makes
the four cases for new data agree.
-/

namespace AnalyseTCP

namespace Connection

/-- A packet whose relative positions fit its payload and the 64-bit fields that hold them. -/
structure Sized (d : DataSeg) : Prop where
  endSeq : d.endSeq = d.seq + d.payloadSize
  lt : d.endSeq < 2 ^ 64

/-- The packet's bytes at or above `last`. -/
def newBytes (d : DataSeg) (last : ℕ) : Finset ℕ :=
  (Finset.Ico d.seq d.endSeq).filter (last ≤ ·)

theorem card_newBytes (d : DataSeg) (last : ℕ) :
    (newBytes d last).card = d.endSeq - max d.seq last := by
  have hbytes : newBytes d last = Finset.Ico (max d.seq last) d.endSeq := by
    ext x
    unfold newBytes
    rw [Finset.mem_filter, Finset.mem_Ico, Finset.mem_Ico]
    omega
  rw [hbytes, Nat.card_Ico]

/-- The balance of the four byte counters, in their own arithmetic. -/
def Balanced (conn : Connection) : Prop :=
  conn.totBytesSent =
    add64 (add64 conn.totNewDataSent conn.totRDBBytesSent) conn.totRetransBytesSent

/-- The last data packet starts below the largest end, unless nothing was sent. -/
def StartsBelow (conn : Connection) : Prop :=
  conn.lastLargestStartSeq < conn.lastLargestEndSeq ∨
    conn.lastLargestStartSeq = 0 ∧ conn.lastLargestEndSeq = 0

/-- What the accounting knows of a connection between two packets. -/
structure Accounted (conn : Connection) : Prop where
  balanced : conn.Balanced
  below : conn.StartsBelow
  lt : conn.lastLargestEndSeq < 2 ^ 64
  fits : conn.totNewDataSent < 2 ^ 64

theorem accounted_new (seq : ℕ) : (new seq).Accounted := by
  refine ⟨?_, .inr ⟨rfl, rfl⟩, ?_, ?_⟩
  · show 0 = add64 (add64 0 0) 0
    decide
  · show 0 < 2 ^ 64
    decide
  · show 0 < 2 ^ 64
    decide

/-! ## The arithmetic of one packet -/

/-- A bundle: the bytes below `last` are old, those from `last` on are new. -/
theorem add64_bundle {new rdb retrans seq last endSeq payload : ℕ}
    (hend : endSeq = seq + payload) (hlt : endSeq < 2 ^ 64) (hseq : seq ≤ last)
    (hlast : last ≤ endSeq) :
    add64 (add64 (add64 new rdb) retrans) payload =
      add64 (add64 (add64 new (sub64 endSeq last)) (add64 rdb (sub64 last seq))) retrans := by
  rw [sub64_eq_sub hlast (by omega), sub64_eq_sub hseq (by omega)]
  unfold add64
  omega

theorem add64_newData (new rdb retrans payload : ℕ) :
    add64 (add64 (add64 new rdb) retrans) payload =
      add64 (add64 (add64 new payload) rdb) retrans := by
  unfold add64
  omega

theorem add64_retrans (new rdb retrans payload : ℕ) :
    add64 (add64 (add64 new rdb) retrans) payload =
      add64 (add64 new rdb) (add64 retrans payload) := by
  unfold add64
  omega

/-! ## The classification of one packet -/

/-- The three conditions under which the source sees a bundle are one: the packet starts below the
largest end. -/
theorem isBundle_iff {conn : Connection} (hbelow : conn.StartsBelow) (seq : ℕ) :
    ((seq = conn.lastLargestStartSeq ∧
        add64 conn.lastLargestStartSeq conn.lastLargestEndSeq ≠ 0) ∨
      (conn.lastLargestStartSeq < seq ∧ seq < conn.lastLargestEndSeq) ∨
      seq < conn.lastLargestEndSeq) ↔ seq < conn.lastLargestEndSeq := by
  constructor
  · rintro (⟨heq, hne⟩ | ⟨-, hlt⟩ | hlt)
    · rcases hbelow with hlt | ⟨hstart, hend⟩
      · rw [heq]
        exact hlt
      · -- nothing was sent: this is the first packet of a stream without SYN
        rw [hstart, hend] at hne
        exact absurd rfl hne
    · exact hlt
    · exact hlt
  · intro hlt
    exact .inr (.inr hlt)

/-- The byte counters after a packet of new data. -/
theorem registerNewData_bytes {conn : Connection} (sd : SendData) (hbelow : conn.StartsBelow) :
    (conn.registerNewData sd).1.totBytesSent = conn.totBytesSent ∧
    (conn.registerNewData sd).1.totRetransBytesSent = conn.totRetransBytesSent ∧
    ((sd.data.seq < conn.lastLargestEndSeq ∧
        (conn.registerNewData sd).1.totNewDataSent =
          add64 conn.totNewDataSent (sub64 sd.data.endSeq conn.lastLargestEndSeq) ∧
        (conn.registerNewData sd).1.totRDBBytesSent =
          add64 conn.totRDBBytesSent (sub64 conn.lastLargestEndSeq sd.data.seq)) ∨
      (conn.lastLargestEndSeq ≤ sd.data.seq ∧
        (conn.registerNewData sd).1.totNewDataSent =
          add64 conn.totNewDataSent sd.data.payloadSize ∧
        (conn.registerNewData sd).1.totRDBBytesSent = conn.totRDBBytesSent)) := by
  have hiff := isBundle_iff hbelow sd.data.seq
  cases conn
  unfold registerNewData
  dsimp only at hiff ⊢
  simp only [hiff]
  split
  · next hlt => exact ⟨rfl, rfl, .inl ⟨hlt, rfl, rfl⟩⟩
  · next hge => exact ⟨rfl, rfl, .inr ⟨not_lt.mp hge, rfl, rfl⟩⟩

/-- The byte counters after a retransmission. -/
theorem registerRetrans_bytes (conn : Connection) (sd : SendData) :
    (conn.registerRetrans sd).1.totBytesSent = conn.totBytesSent ∧
    (conn.registerRetrans sd).1.totNewDataSent = conn.totNewDataSent ∧
    (conn.registerRetrans sd).1.totRDBBytesSent = conn.totRDBBytesSent ∧
    (conn.registerRetrans sd).1.totRetransBytesSent =
      add64 conn.totRetransBytesSent sd.data.payloadSize := by
  cases conn
  exact ⟨rfl, rfl, rfl, rfl⟩

theorem registerNewData_data (conn : Connection) (sd : SendData) :
    (conn.registerNewData sd).2.data.seq = sd.data.seq ∧
      (conn.registerNewData sd).2.data.payloadSize = sd.data.payloadSize := by
  cases conn
  unfold registerNewData
  dsimp only
  split <;> exact ⟨rfl, rfl⟩

/-- The position of a packet as the classification sees it: its own, or 0 after a SYN that restarts
the numbering. -/
def Placed (d : DataSeg) : Prop := Sized d ∨ d.seq = 0 ∧ d.endSeq = 0

/-- New data, once the packet itself has been counted. -/
theorem accounted_newData {conn : Connection} {sd : SendData} (hinv : conn.Accounted)
    (hsized : Sized sd.data) (hnew : conn.lastLargestEndSeq < sd.data.endSeq)
    (hdata : sd.data.payloadSize ≠ 0) :
    (conn.classify sd).1.Accounted ∧
      (conn.classify sd).1.totNewDataSent =
        add64 conn.totNewDataSent (newBytes sd.data conn.lastLargestEndSeq).card := by
  obtain ⟨hend, hlt⟩ := hsized
  obtain ⟨htot, hretrans, hcase⟩ := registerNewData_bytes sd hinv.below
  obtain ⟨-, hlast, -⟩ := registerNewData_reference conn sd
  obtain ⟨hseq, hpayload⟩ := registerNewData_data conn sd
  have hbal : conn.totBytesSent = _ := hinv.balanced
  unfold classify
  rw [if_neg hdata, if_pos hnew]
  dsimp only
  refine ⟨⟨?_, ?_, ?_, ?_⟩, ?_⟩
  · show add64 (conn.registerNewData sd).1.totBytesSent
        (conn.registerNewData sd).2.data.payloadSize =
      add64 (add64 (conn.registerNewData sd).1.totNewDataSent
        (conn.registerNewData sd).1.totRDBBytesSent) (conn.registerNewData sd).1.totRetransBytesSent
    rw [htot, hpayload, hretrans, hbal]
    -- a bundle counts its old bytes as RDB and the rest as new; else all bytes are new
    rcases hcase with ⟨hold, hbytes, hrdb⟩ | ⟨hnone, hbytes, hrdb⟩
    · rw [hbytes, hrdb]
      exact add64_bundle hend hlt hold.le hnew.le
    · rw [hbytes, hrdb]
      exact add64_newData _ _ _ _
  · left
    show (conn.registerNewData sd).2.data.seq < (conn.registerNewData sd).1.lastLargestEndSeq
    rw [hseq, hlast]
    omega
  · show (conn.registerNewData sd).1.lastLargestEndSeq < 2 ^ 64
    rw [hlast]
    exact hlt
  · show (conn.registerNewData sd).1.totNewDataSent < 2 ^ 64
    rcases hcase with ⟨-, hbytes, -⟩ | ⟨-, hbytes, -⟩
    · rw [hbytes]
      exact Nat.mod_lt _ (by decide)
    · rw [hbytes]
      exact Nat.mod_lt _ (by decide)
  · show (conn.registerNewData sd).1.totNewDataSent = _
    rw [card_newBytes]
    rcases hcase with ⟨hold, hbytes, -⟩ | ⟨hnone, hbytes, -⟩
    · rw [hbytes, sub64_eq_sub hnew.le (by omega), max_eq_right hold.le]
    · rw [hbytes, max_eq_left hnone, hend]
      congr 1
      omega

/-- A retransmission, once the packet itself has been counted. -/
theorem accounted_retrans {conn : Connection} {sd : SendData} (hinv : conn.Accounted)
    (hplaced : Placed sd.data) (hold : ¬conn.lastLargestEndSeq < sd.data.endSeq)
    (hdata : sd.data.payloadSize ≠ 0) :
    (conn.classify sd).1.Accounted ∧
      (conn.classify sd).1.totNewDataSent = conn.totNewDataSent := by
  obtain ⟨htot, hnew, hrdb, hretrans⟩ := registerRetrans_bytes conn sd
  obtain ⟨-, hlast, -⟩ := registerRetrans_reference conn sd
  have hbal : conn.totBytesSent = _ := hinv.balanced
  have hlt := hinv.lt
  unfold classify
  rw [if_neg hdata, if_neg hold]
  dsimp only
  refine ⟨⟨?_, ?_, ?_, ?_⟩, hnew⟩
  · show add64 (conn.registerRetrans sd).1.totBytesSent sd.data.payloadSize =
      add64 (add64 (conn.registerRetrans sd).1.totNewDataSent
        (conn.registerRetrans sd).1.totRDBBytesSent) (conn.registerRetrans sd).1.totRetransBytesSent
    rw [htot, hnew, hrdb, hretrans, hbal]
    exact add64_retrans _ _ _ _
  · show sd.data.seq < (conn.registerRetrans sd).1.lastLargestEndSeq ∨
      sd.data.seq = 0 ∧ (conn.registerRetrans sd).1.lastLargestEndSeq = 0
    rw [hlast]
    -- data ends where it starts plus its size; a restarted packet lies at zero
    rcases hplaced with ⟨hend, -⟩ | ⟨hseq, -⟩
    · omega
    · omega
  · show (conn.registerRetrans sd).1.lastLargestEndSeq < 2 ^ 64
    rw [hlast]
    exact hlt
  · show (conn.registerRetrans sd).1.totNewDataSent < 2 ^ 64
    rw [hnew]
    exact hinv.fits

theorem accounted_classify {conn : Connection} {sd : SendData} (hinv : conn.Accounted)
    (hplaced : Placed sd.data) : (conn.classify sd).1.Accounted := by
  by_cases hdata : sd.data.payloadSize = 0
  · unfold classify
    rw [if_pos hdata]
    exact hinv
  by_cases hnew : conn.lastLargestEndSeq < sd.data.endSeq
  · rcases hplaced with hsized | ⟨-, hend⟩
    · exact (accounted_newData hinv hsized hnew hdata).1
    · omega
  · exact (accounted_retrans hinv hplaced hnew hdata).1

/-! ## Whole runs -/

/-- Only the byte counters and the two positions matter. -/
theorem Accounted.of_eq {conn conn' : Connection} (hinv : conn.Accounted)
    (htot : conn'.totBytesSent = conn.totBytesSent)
    (hnew : conn'.totNewDataSent = conn.totNewDataSent)
    (hrdb : conn'.totRDBBytesSent = conn.totRDBBytesSent)
    (hretrans : conn'.totRetransBytesSent = conn.totRetransBytesSent)
    (hstart : conn'.lastLargestStartSeq = conn.lastLargestStartSeq)
    (hend : conn'.lastLargestEndSeq = conn.lastLargestEndSeq) : conn'.Accounted := by
  obtain ⟨hbal, hbelow, hlt, hfits⟩ := hinv
  refine ⟨?_, ?_, ?_, ?_⟩
  · unfold Balanced at hbal ⊢
    rw [htot, hnew, hrdb, hretrans]
    exact hbal
  · unfold StartsBelow at hbelow ⊢
    rw [hstart, hend]
    exact hbelow
  · rw [hend]
    exact hlt
  · rw [hnew]
    exact hfits

theorem registerSent_accounted {conn : Connection} {sd : SendData} (hinv : conn.Accounted)
    (hsized : Sized sd.data) : (conn.registerSent sd).1.Accounted := by
  have hcount : (conn.countPacket sd).Accounted := hinv.of_eq rfl rfl rfl rfl rfl rfl
  rcases registerSent_cases conn sd with ⟨-, -, hout⟩ | ⟨c, d, hchecked, hout⟩
  · rw [hout]
    exact hinv.of_eq rfl rfl rfl rfl rfl rfl
  rw [hout]
  cases hchecked with
  | closes _ => exact accounted_classify (hcount.of_eq rfl rfl rfl rfl rfl rfl) (.inl hsized)
  | restarts _ =>
      exact accounted_classify (hcount.of_eq rfl rfl rfl rfl rfl rfl) (.inr ⟨rfl, rfl⟩)
  | plain _ => exact accounted_classify hcount (.inl hsized)

/-- An accepted data packet without SYN adds its bytes at or above the largest end. -/
theorem registerSent_totNewDataSent {conn : Connection} {sd : SendData} (hinv : conn.Accounted)
    (hsized : Sized sd.data) (hsyn : sd.data.syn = false) (hdata : sd.data.payloadSize ≠ 0)
    (haccepted : (conn.registerSent sd).2.2 = true) :
    (conn.registerSent sd).1.totNewDataSent =
      add64 conn.totNewDataSent (newBytes sd.data conn.lastLargestEndSeq).card := by
  have hcount : (conn.countPacket sd).Accounted := hinv.of_eq rfl rfl rfl rfl rfl rfl
  rcases registerSent_cases conn sd with ⟨-, -, hout⟩ | ⟨c, d, hchecked, hout⟩
  · rw [hout] at haccepted
    cases haccepted
  rw [hout]
  cases hchecked with
  | closes h => exact absurd (hsyn.symm.trans h.2.2.1) Bool.false_ne_true
  | restarts h => exact absurd (hsyn.symm.trans h.2.2.1) Bool.false_ne_true
  | plain _ =>
      by_cases hnew : (conn.countPacket sd).lastLargestEndSeq < sd.data.endSeq
      · exact (accounted_newData hcount hsized hnew hdata).2
      · have hnone : (newBytes sd.data conn.lastLargestEndSeq).card = 0 := by
          rw [card_newBytes]
          have hle : sd.data.endSeq ≤ conn.lastLargestEndSeq := not_lt.mp hnew
          omega
        have hsame := (accounted_retrans hcount (.inl hsized) hnew hdata).2
        rw [hnone, hsame]
        exact (Nat.mod_eq_of_lt hinv.fits).symm

/-- One packet given to `registerSent`.  Of the ranges it reads `firstSeq` only; what the program
makes of them before the next packet is left open. -/
def registerSentThen (conn : Connection) (call : SendData × RangeManager) : Connection :=
  { (conn.registerSent call.1).1 with rm := call.2 }

theorem foldl_registerSentThen_accounted {conn : Connection} (hinv : conn.Accounted)
    {calls : List (SendData × RangeManager)} (hcalls : ∀ call ∈ calls, Sized call.1.data) :
    (calls.foldl registerSentThen conn).Accounted := by
  induction calls generalizing conn with
  | nil => exact hinv
  | cons call calls ih =>
      have hsized := hcalls call List.mem_cons_self
      apply ih
      · exact (registerSent_accounted hinv hsized).of_eq rfl rfl rfl rfl rfl rfl
      · intro call' hmem
        exact hcalls call' (List.mem_cons_of_mem _ hmem)

/-- After any packets, in any order, the byte counters balance, and the next data packet without
SYN that is accepted adds to the new data exactly its bytes at or above the largest end. -/
theorem registerSent_run_balanced (seq : ℕ) {calls : List (SendData × RangeManager)}
    (hcalls : ∀ call ∈ calls, Sized call.1.data) :
    (calls.foldl registerSentThen (new seq)).Balanced ∧
    ∀ sd : SendData, Sized sd.data →
      ((calls.foldl registerSentThen (new seq)).registerSent sd).1.Balanced ∧
      (sd.data.syn = false → sd.data.payloadSize ≠ 0 →
        ((calls.foldl registerSentThen (new seq)).registerSent sd).2.2 = true →
        ((calls.foldl registerSentThen (new seq)).registerSent sd).1.totNewDataSent =
          add64 (calls.foldl registerSentThen (new seq)).totNewDataSent
            (newBytes sd.data
              (calls.foldl registerSentThen (new seq)).lastLargestEndSeq).card) := by
  have hinv := foldl_registerSentThen_accounted (accounted_new seq) hcalls
  refine ⟨hinv.balanced, fun sd hsized => ⟨?_, ?_⟩⟩
  · exact (registerSent_accounted hinv hsized).balanced
  · intro hsyn hdata haccepted
    exact registerSent_totNewDataSent hinv hsized hsyn hdata haccepted

/-- Ten bytes, a retransmission of the first five, and a bundle that starts at the sixth. -/
def mixedSends : List (SendData × RangeManager) :=
  [({ data := { seq := 0, endSeq := 10, payloadSize := 10 } }, .new 0),
    ({ data := { seq := 0, endSeq := 5, payloadSize := 5 } }, .new 0),
    ({ data := { seq := 5, endSeq := 15, payloadSize := 10 } }, .new 0)]

/-- Three bytes of the next bundle were sent before, five are new. -/
def nextBundle : SendData := { data := { seq := 12, endSeq := 20, payloadSize := 8 } }

theorem registerSent_run_balanced_mixed :
    (mixedSends.foldl registerSentThen (new 0)).Balanced ∧
      ((mixedSends.foldl registerSentThen (new 0)).registerSent nextBundle).1.Balanced ∧
      ((mixedSends.foldl registerSentThen (new 0)).registerSent nextBundle).1.totNewDataSent =
        add64 (mixedSends.foldl registerSentThen (new 0)).totNewDataSent 5 := by
  have hcalls : ∀ call ∈ mixedSends, Sized call.1.data := by
    simp only [mixedSends, List.forall_mem_cons]
    exact ⟨⟨rfl, by decide⟩, ⟨rfl, by decide⟩, ⟨rfl, by decide⟩, fun _ h => (nomatch h)⟩
  obtain ⟨hbalanced, hnext⟩ := registerSent_run_balanced 0 hcalls
  obtain ⟨hbalanced', hnew⟩ := hnext nextBundle ⟨rfl, by decide⟩
  refine ⟨hbalanced, hbalanced', ?_⟩
  rw [hnew (by decide) (by decide) (by decide), card_newBytes]
  rfl

end Connection

end AnalyseTCP
