import AnalyseTCP.LatencyVariation
import AnalyseTCP.Lib.Run
import AnalyseTCP.RangeMap

/-!
# The transmission that was received

A range keeps the timestamps of its transmissions in two lists, `tstamps_tcp` and
`rdb_tstamps_tcp`, and the capture times of all of them in a third one.  `matchReceivedType` finds
the received timestamp in one of the first two and stores the position, in 8 bits, for use in the
third.
-/

namespace AnalyseTCP

/-- One call of `increase_sent`. -/
structure Transmission where
  tsval : ℕ
  tsecr : ℕ
  tstampPcap : Timeval
  rdb : Bool
  sentT : SentType
deriving DecidableEq, Repr

/-- What happens to a range; of the two parts that `splitEnd` makes, one is looked at. -/
inductive RangeOp
  | increaseSent (x : Transmission)
  | splitHead (start : ℕ)
  | splitTail (start : ℕ)
  | increaseReceived (tstampTcp : ℕ) (tstampPcap : Timeval) (inSequence : Bool)

namespace ByteRange

def applyOp (r : ByteRange) : RangeOp → Except Abort ByteRange
  | .increaseSent x => .ok (r.increaseSent x.tsval x.tsecr x.tstampPcap x.rdb x.sentT)
  | .splitHead start => do
      let (head, _) ← r.splitEnd start r.endSeq
      return head
  | .splitTail start => do
      let (_, newBr) ← r.splitEnd start r.endSeq
      return newBr
  | .increaseReceived tstampTcp tstampPcap inSequence =>
      .ok (r.increaseReceived tstampTcp tstampPcap inSequence)

def transmissions (ops : List RangeOp) : List Transmission :=
  ops.filterMap fun
    | .increaseSent x => some x
    | _ => none

/-! ## The three lists -/

/-- The lists of a range that was sent by `xs` and has not been matched. -/
structure Recorded (xs : List Transmission) (r : ByteRange) : Prop where
  regular : r.tstampsTcp.map Prod.fst = (xs.filter fun x => !x.rdb).map Transmission.tsval
  bundled : r.rdbTstampsTcp = (xs.filter Transmission.rdb).map Transmission.tsval
  times : r.sentTstampPcap.map Prod.fst = xs.map Transmission.tstampPcap
  unmatched : r.sendTcpStampRecvIndex = 0

theorem Recorded.congr {xs : List Transmission} {r r' : ByteRange} (h : Recorded xs r)
    (hregular : r'.tstampsTcp = r.tstampsTcp) (hbundled : r'.rdbTstampsTcp = r.rdbTstampsTcp)
    (htimes : r'.sentTstampPcap.map Prod.fst = r.sentTstampPcap.map Prod.fst)
    (hunmatched : r'.sendTcpStampRecvIndex = r.sendTcpStampRecvIndex) : Recorded xs r' :=
  ⟨by rw [hregular, h.regular], by rw [hbundled, h.bundled], by rw [htimes, h.times],
    by rw [hunmatched, h.unmatched]⟩

theorem recorded_blank (start stop : ℕ) : Recorded [] (blank start stop) := ⟨rfl, rfl, rfl, rfl⟩

theorem Recorded.updateByteCount {xs : List Transmission} {r r' : ByteRange} (h : Recorded xs r)
    (hr : r.updateByteCount = .ok r') : Recorded xs r' := by
  unfold ByteRange.updateByteCount at hr
  split at hr
  · rw [← Except.ok.inj hr]
    exact h.congr rfl rfl rfl rfl
  · cases hr

theorem recorded_new {start stop : ℕ} {r : ByteRange} (hr : new start stop = .ok r) :
    Recorded [] r := by
  obtain ⟨r₁, hr₁, hr⟩ := Run.exists_of_bind_ok hr
  rw [← Except.ok.inj hr]
  exact ((recorded_blank start stop).updateByteCount hr₁).congr rfl rfl rfl rfl

/-- Both parts of a range inherit its lists. -/
theorem Recorded.splitEnd {xs : List Transmission} {r head tail : ByteRange} {start : ℕ}
    (h : Recorded xs r) (hr : r.splitEnd start r.endSeq = .ok (head, tail)) :
    Recorded xs head ∧ Recorded xs tail := by
  unfold ByteRange.splitEnd at hr
  obtain ⟨newBr, hnew, hr⟩ := Run.exists_of_bind_ok hr
  obtain ⟨r', hr', hr⟩ := Run.exists_of_bind_ok hr
  obtain ⟨rfl, rfl⟩ := Prod.mk.inj (Except.ok.inj hr)
  have hcut : Recorded xs { r with endSeq := start } := h.congr rfl rfl rfl rfl
  have hhead := hcut.updateByteCount hr'
  refine ⟨hhead, h.regular, h.bundled, ?_, (recorded_new hnew).unmatched⟩
  show (r'.sentTstampPcap.map _).map Prod.fst = _
  rw [List.map_map, ← hhead.times]
  rfl

theorem Recorded.increaseSent {xs : List Transmission} {r : ByteRange} (h : Recorded xs r)
    (x : Transmission) :
    Recorded (xs ++ [x]) (r.increaseSent x.tsval x.tsecr x.tstampPcap x.rdb x.sentT) := by
  refine ⟨?_, ?_, ?_, h.unmatched⟩
  · show List.map Prod.fst (if x.rdb then r.tstampsTcp else r.tstampsTcp ++ [(x.tsval, x.tsecr)]) = _
    rw [List.filter_append, List.map_append, ← h.regular]
    cases hrdb : x.rdb with
    | false => simp [hrdb]
    | true => simp [hrdb]
  · show (if x.rdb then r.rdbTstampsTcp ++ [x.tsval] else r.rdbTstampsTcp) = _
    rw [List.filter_append, List.map_append, ← h.bundled]
    cases hrdb : x.rdb with
    | false => simp [hrdb]
    | true => simp [hrdb]
  · show (r.sentTstampPcap ++ [(x.tstampPcap, x.sentT)]).map Prod.fst = _
    rw [List.map_append, List.map_append, h.times]
    rfl

theorem Recorded.increaseReceived {xs : List Transmission} {r : ByteRange} (h : Recorded xs r)
    (tstampTcp : ℕ) (tstampPcap : Timeval) (inSequence : Bool) :
    Recorded xs (r.increaseReceived tstampTcp tstampPcap inSequence) := by
  unfold ByteRange.increaseReceived
  dsimp only
  split
  · exact h.congr rfl rfl rfl rfl
  · exact h.congr rfl rfl rfl rfl

theorem Recorded.applyOp {xs : List Transmission} {r r' : ByteRange} {op : RangeOp}
    (h : Recorded xs r) (hr : r.applyOp op = .ok r') : Recorded (xs ++ transmissions [op]) r' := by
  cases op with
  | increaseSent x =>
      rw [← Except.ok.inj hr]
      exact h.increaseSent x
  | splitHead start =>
      obtain ⟨⟨head, tail⟩, hsplit, hr⟩ := Run.exists_of_bind_ok hr
      rw [← Except.ok.inj hr, show transmissions [.splitHead start] = [] from rfl, List.append_nil]
      exact (h.splitEnd hsplit).1
  | splitTail start =>
      obtain ⟨⟨head, tail⟩, hsplit, hr⟩ := Run.exists_of_bind_ok hr
      rw [← Except.ok.inj hr, show transmissions [.splitTail start] = [] from rfl, List.append_nil]
      exact (h.splitEnd hsplit).2
  | increaseReceived tstampTcp tstampPcap inSequence =>
      rw [← Except.ok.inj hr]
      show Recorded (xs ++ []) _
      rw [List.append_nil]
      exact h.increaseReceived tstampTcp tstampPcap inSequence

theorem recorded_run {start stop : ℕ} {r₀ r : ByteRange} {ops : List RangeOp}
    (hnew : new start stop = .ok r₀) (hrun : Run.run applyOp r₀ ops = .ok r) :
    Recorded (transmissions ops) r := by
  have hinv : Recorded (transmissions []) r₀ := recorded_new hnew
  apply Run.invariant (I := fun r ops => Recorded (transmissions ops) r) (d := [])
    (fun r op r' d hinv _ hstep => ?_) hinv (Run.steps_true r₀ ops) hrun
  rw [show transmissions (d ++ [op]) = transmissions d ++ transmissions [op] from
    List.filterMap_append]
  exact hinv.applyOp hstep

/-! ## The position -/

/-- The transmissions that are not RDB data. -/
def regularCount (xs : List Transmission) : ℕ := xs.countP fun x => !x.rdb

/-- Some transmission with the TCP timestamp `t` is not RDB data. -/
def SentRegularly (xs : List Transmission) (t : ℕ) : Prop := ∃ x ∈ xs, x.rdb = false ∧ x.tsval = t

instance (xs : List Transmission) (t : ℕ) : Decidable (SentRegularly xs t) :=
  inferInstanceAs (Decidable (∃ x ∈ xs, _))

/-- The transmissions before the first one with `t` that is not RDB data. -/
def beforeRegular (xs : List Transmission) (t : ℕ) : List Transmission :=
  xs.takeWhile fun x => x.rdb || x.tsval != t

/-- The position of `t` in `tstamps_tcp` counts the regular transmissions before it. -/
theorem findIdx?_regular (xs : List Transmission) (t : ℕ) :
    ((xs.filter fun x => !x.rdb).map Transmission.tsval).findIdx? (· == t) =
      if SentRegularly xs t then some (regularCount (beforeRegular xs t)) else none := by
  induction xs with
  | nil => rfl
  | cons y xs ih =>
      have hcons : SentRegularly (y :: xs) t ↔ y.rdb = false ∧ y.tsval = t ∨ SentRegularly xs t := by
        unfold SentRegularly
        rw [List.exists_mem_cons_iff]
      unfold beforeRegular regularCount at *
      cases hrdb : y.rdb with
      | true =>
          -- RDB data has no place in `tstamps_tcp`
          have hsame : SentRegularly (y :: xs) t ↔ SentRegularly xs t := by
            rw [hcons, hrdb]
            simp
          simp only [hsame, List.filter_cons, List.takeWhile_cons, List.countP_cons, hrdb, ih,
            Bool.true_or, Bool.not_true, if_true, if_false, Bool.false_eq_true, Nat.add_zero]
      | false =>
          by_cases ht : y.tsval = t
          · have hfound : SentRegularly (y :: xs) t := hcons.mpr (.inl ⟨hrdb, ht⟩)
            rw [if_pos hfound]
            simp [hrdb, ht, List.findIdx?_cons]
          · have hsame : SentRegularly (y :: xs) t ↔ SentRegularly xs t := by
              rw [hcons]
              simp [ht]
            have htrue : (y.tsval == t) = false := beq_eq_false_iff_ne.mpr ht
            simp only [hsame, List.filter_cons, List.map_cons, List.findIdx?_cons,
              List.takeWhile_cons, List.countP_cons, hrdb, ih, htrue, bne, Bool.false_or,
              Bool.not_false, if_true, if_false, Bool.false_eq_true]
            split
            · rfl
            · rfl

/-! ## The send time that is read -/

variable {r : ByteRange} {i : ℕ}

theorem matchReceivedType_regular
    (h : (r.tstampsTcp.map Prod.fst).findIdx? (· == r.receivedTstampTcp) = some i) :
    r.matchReceivedType.2 = true ∧ r.matchReceivedType.1.matchedSendTime =
      (r.sentTstampPcap.map Prod.fst)[i % 2 ^ 8]? := by
  rw [List.findIdx?_map] at h
  have h' : (r.tstampsTcp.findIdx? fun p => p.1 == r.receivedTstampTcp) = some i := h
  rw [List.getElem?_map]
  unfold matchReceivedType
  rw [h']
  cases i with
  | zero => exact ⟨rfl, rfl⟩
  | succ i => exact ⟨rfl, rfl⟩

theorem matchReceivedType_bundled
    (hnone : (r.tstampsTcp.map Prod.fst).findIdx? (· == r.receivedTstampTcp) = none)
    (hunmatched : r.sendTcpStampRecvIndex = 0) :
    (r.matchReceivedType.2 = true ↔ r.receivedTstampTcp ∈ r.rdbTstampsTcp) ∧
      r.matchReceivedType.1.matchedSendTime = (r.sentTstampPcap.map Prod.fst)[0]? := by
  rw [List.findIdx?_map] at hnone
  have hnone' : (r.tstampsTcp.findIdx? fun p => p.1 == r.receivedTstampTcp) = none := hnone
  rw [List.getElem?_map, ← hunmatched]
  unfold matchReceivedType
  rw [hnone']
  cases hrdb : r.rdbTstampsTcp.findIdx? (· == r.receivedTstampTcp) with
  | none =>
      rw [List.findIdx?_eq_none_iff] at hrdb
      refine ⟨iff_of_false Bool.false_ne_true fun hmem => ?_, rfl⟩
      have hne := hrdb _ hmem
      rw [beq_self_eq_true] at hne
      cases hne
  | some i =>
      refine ⟨iff_of_true rfl ?_, rfl⟩
      obtain ⟨hlt, hget, -⟩ := List.findIdx?_eq_some_iff_getElem.mp hrdb
      rw [← eq_of_beq hget]
      exact List.getElem_mem hlt

/-- If the received copy is matched, the send time read for it is the capture time of a
transmission with the received timestamp. -/
def ReadsItsTransmission (xs : List Transmission) (r : ByteRange) : Prop :=
  r.matchReceivedType.2 = true → ∃ x ∈ xs, x.tsval = r.receivedTstampTcp ∧
    r.matchReceivedType.1.matchedSendTime = some x.tstampPcap

/-- Transmission number `j` was captured at the time of one with the timestamp `t`. -/
def CapturedWith (xs : List Transmission) (t j : ℕ) : Prop :=
  ∃ x ∈ xs, x.tsval = t ∧ (xs[j]?).map Transmission.tstampPcap = some x.tstampPcap

instance (xs : List Transmission) (t j : ℕ) : Decidable (CapturedWith xs t j) :=
  inferInstanceAs (Decidable (∃ x ∈ xs, _))

/-- When the position in `tstamps_tcp` serves for all transmissions. -/
def PositionsAgree (xs : List Transmission) (t : ℕ) : Prop :=
  if SentRegularly xs t then
    -- nothing but regular transmissions before it, and not too many
    ((beforeRegular xs t).all (fun x => !x.rdb) ∧ (beforeRegular xs t).length < 2 ^ 8) ∨
      CapturedWith xs t (regularCount (beforeRegular xs t) % 2 ^ 8)
  -- only RDB data has the timestamp: the position stays 0
  else (∃ x ∈ xs, x.tsval = t) → CapturedWith xs t 0

instance (xs : List Transmission) (t : ℕ) : Decidable (PositionsAgree xs t) :=
  if h : SentRegularly xs t then
    decidable_of_iff
      (((beforeRegular xs t).all (fun x => !x.rdb) ∧ (beforeRegular xs t).length < 2 ^ 8) ∨
        CapturedWith xs t (regularCount (beforeRegular xs t) % 2 ^ 8))
      (by rw [PositionsAgree, if_pos h])
  else
    decidable_of_iff ((∃ x ∈ xs, x.tsval = t) → CapturedWith xs t 0)
      (by rw [PositionsAgree, if_neg h])

/-- The first regular transmission with `t` comes right after those before it. -/
theorem capturedWith_beforeRegular {xs : List Transmission} {t : ℕ} (h : SentRegularly xs t) :
    CapturedWith xs t (beforeRegular xs t).length := by
  have hsplit : beforeRegular xs t ++ xs.dropWhile (fun x => x.rdb || x.tsval != t) = xs :=
    List.takeWhile_append_dropWhile
  have hhead := List.head?_dropWhile_not (fun x : Transmission => x.rdb || x.tsval != t) xs
  cases hdrop : xs.dropWhile (fun x => x.rdb || x.tsval != t) with
  | nil =>
      obtain ⟨x, hx, hrdb, htsval⟩ := h
      have hnot := List.dropWhile_eq_nil_iff.mp hdrop x hx
      rw [hrdb, htsval] at hnot
      simp at hnot
  | cons x rest =>
      rw [hdrop] at hsplit hhead
      have hx : x.rdb = false ∧ x.tsval = t := by simpa using hhead
      refine ⟨x, ?_, hx.2, ?_⟩
      · rw [← hsplit]
        exact List.mem_append_right _ List.mem_cons_self
      · have hget : (beforeRegular xs t ++ x :: rest)[(beforeRegular xs t).length]? = some x := by
          rw [List.getElem?_append_right le_rfl, Nat.sub_self]
          rfl
        rw [hsplit] at hget
        rw [hget]
        rfl

/-- The send time of a received range is that of a transmission with the received timestamp exactly
when the position among the regular transmissions serves among all of them. -/
theorem matchReceivedType_reads_iff {start stop : ℕ} {r₀ r : ByteRange} {ops : List RangeOp}
    (hnew : new start stop = .ok r₀) (hrun : Run.run applyOp r₀ ops = .ok r) :
    ReadsItsTransmission (transmissions ops) r ↔
      PositionsAgree (transmissions ops) r.receivedTstampTcp := by
  have hrec := recorded_run hnew hrun
  generalize transmissions ops = xs at *
  have hfind := findIdx?_regular xs r.receivedTstampTcp
  rw [← hrec.regular] at hfind
  unfold ReadsItsTransmission PositionsAgree
  by_cases hregular : SentRegularly xs r.receivedTstampTcp
  · -- matched in `tstamps_tcp`, at the position among the regular transmissions
    rw [if_pos hregular] at hfind ⊢
    obtain ⟨hmatched, htime⟩ := matchReceivedType_regular hfind
    rw [hmatched, htime, hrec.times]
    simp only [forall_const, List.getElem?_map]
    constructor
    · exact fun h => .inr h
    · rintro (⟨hall, hlen⟩ | h)
      · have hcount : regularCount (beforeRegular xs r.receivedTstampTcp) =
            (beforeRegular xs r.receivedTstampTcp).length := by
          unfold regularCount
          rw [List.countP_eq_length]
          exact List.all_eq_true.mp hall
        rw [hcount, Nat.mod_eq_of_lt hlen]
        exact capturedWith_beforeRegular hregular
      · exact h
  · -- matched in `rdb_tstamps_tcp` or not at all: the position stays where it was
    rw [if_neg hregular] at hfind ⊢
    obtain ⟨hmatched, htime⟩ := matchReceivedType_bundled hfind hrec.unmatched
    have hbundled : r.receivedTstampTcp ∈ r.rdbTstampsTcp ↔
        ∃ x ∈ xs, x.tsval = r.receivedTstampTcp := by
      rw [hrec.bundled, List.mem_map]
      constructor
      · rintro ⟨x, hx, ht⟩
        exact ⟨x, (List.mem_filter.mp hx).1, ht⟩
      · rintro ⟨x, hx, ht⟩
        refine ⟨x, List.mem_filter.mpr ⟨hx, ?_⟩, ht⟩
        rw [← Bool.not_eq_false]
        exact fun hrdb => hregular ⟨x, hx, hrdb, ht⟩
    rw [hmatched, hbundled, htime, hrec.times]
    simp only [List.getElem?_map]
    exact Iff.rfl

/-- A retransmission whose copy is received first. -/
def resentOps : List RangeOp :=
  [.increaseSent ⟨10, 1, ⟨1, 0⟩, false, .pkt⟩, .increaseSent ⟨20, 1, ⟨2, 0⟩, false, .rtr⟩,
    .splitTail 4, .increaseReceived 20 ⟨3, 0⟩ true]

theorem matchReceivedType_reads_iff_resent :
    ∃ r₀ r, new 0 8 = .ok r₀ ∧ Run.run applyOp r₀ resentOps = .ok r ∧
      r.matchReceivedType.2 = true ∧ ReadsItsTransmission (transmissions resentOps) r := by
  obtain ⟨r, hboth, hr⟩ := Run.exists_of_any_toOption
    (x := new 0 8 >>= fun r₀ => Run.run applyOp r₀ resentOps)
    (p := fun r => decide (r.matchReceivedType.2 = true ∧ r.receivedTstampTcp = 20))
    (by decide +kernel)
  obtain ⟨r₀, hnew, hrun⟩ := Run.exists_of_bind_ok hboth
  obtain ⟨hmatched, htstamp⟩ := of_decide_eq_true hr
  refine ⟨r₀, r, hnew, hrun, hmatched, (matchReceivedType_reads_iff hnew hrun).mpr ?_⟩
  rw [htstamp]
  decide

/-- The data is first sent in a bundle, and the copy of its retransmission is received. -/
def bundledOps : List RangeOp :=
  [.increaseSent ⟨10, 1, ⟨1, 0⟩, true, .none⟩, .increaseSent ⟨20, 1, ⟨2, 0⟩, false, .rtr⟩,
    .increaseReceived 20 ⟨3, 0⟩ true]

/-- The delay of the retransmission is measured from the bundle. -/
theorem matchReceivedType_reads_bundle :
    ∃ r₀ r, new 0 8 = .ok r₀ ∧ Run.run applyOp r₀ bundledOps = .ok r ∧
      r.matchReceivedType.2 = true ∧ r.matchReceivedType.1.matchedSendTime = some ⟨1, 0⟩ ∧
        ¬ReadsItsTransmission (transmissions bundledOps) r := by
  obtain ⟨r, hboth, hr⟩ := Run.exists_of_any_toOption
    (x := new 0 8 >>= fun r₀ => Run.run applyOp r₀ bundledOps)
    (p := fun r => decide (r.matchReceivedType.2 = true ∧ r.receivedTstampTcp = 20 ∧
      r.matchReceivedType.1.matchedSendTime = some ⟨1, 0⟩)) (by decide +kernel)
  obtain ⟨r₀, hnew, hrun⟩ := Run.exists_of_bind_ok hboth
  obtain ⟨hmatched, htstamp, htime⟩ := of_decide_eq_true hr
  refine ⟨r₀, r, hnew, hrun, hmatched, htime, fun h => ?_⟩
  obtain ⟨x, hx, htsval, hx'⟩ := h hmatched
  rw [htstamp] at htsval
  rw [htime] at hx'
  -- the only transmission with this timestamp was captured at time 2
  have honly : ∀ x ∈ transmissions bundledOps, x.tsval = 20 → x.tstampPcap = ⟨2, 0⟩ := by decide
  rw [honly x hx htsval] at hx'
  exact absurd hx' (by decide)

end ByteRange

end AnalyseTCP
