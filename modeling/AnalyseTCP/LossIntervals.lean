import AnalyseTCP.RealLoss
import AnalyseTCP.Lib.Buckets
import AnalyseTCP.Lib.Run

/-!
# `RangeManager::calculateLossGroupedByInterval` and `LossStatsWriter`

Loss per time interval: every transmission and every loss of the analysed ranges is put into the
bucket of its send time.  The program counts in `double`; all amounts are whole numbers, and they
are naturals here.  `-L` rejects an interval length of 0.
-/

namespace AnalyseTCP

open Buckets

/-- `TV_TO_MS`. -/
def tvToMs (tv : Timeval) : ℤ := tv.tvSec * 1000 + tv.tvUsec.tdiv 1000

structure LossInterval where
  cntBytes : ℕ := 0
  allBytes : ℕ := 0
  newBytes : ℕ := 0
  totCntBytes : ℕ := 0
  totAllBytes : ℕ := 0
  totNewBytes : ℕ := 0
deriving DecidableEq, Repr

namespace LossInterval

/-- `operator+=`, which leaves the totals alone. -/
def add (l rhs : LossInterval) : LossInterval :=
  { l with
    cntBytes := l.cntBytes + rhs.cntBytes
    allBytes := l.allBytes + rhs.allBytes
    newBytes := l.newBytes + rhs.newBytes }

def addTotal (l : LossInterval) (ranges allBytes newBytes : ℕ) : LossInterval :=
  { l with
    totCntBytes := l.totCntBytes + ranges
    totAllBytes := l.totAllBytes + allBytes
    totNewBytes := l.totNewBytes + newBytes }

end LossInterval

/-- One entry of the vectors `tc`, `tb` and `tn`, which always grow together. -/
structure SentTotals where
  count : ℕ := 0
  bytes : ℕ := 0
  newBytes : ℕ := 0
deriving DecidableEq, Repr

variable (lossAggrMs : ℕ) (firstTstamp : ℤ)

/-- A time before `first_tstamp` is converted to a huge unsigned number first. -/
def intervalIdx (ts : Timeval) : ℕ := ((tvToMs ts - firstTstamp) % 2 ^ 64).toNat / lossAggrMs

namespace RangeManager

/-! ## The three loops -/

/-- The payload of the first transmission counts as new bytes, in its interval. -/
def addNewBytes (v : List SentTotals) (r : ByteRange) : List SentTotals :=
  match r.sentTstampPcap with
  | [] => v
  | s :: _ =>
      if 0 < r.packetSentCount.val then
        bump {} v (intervalIdx lossAggrMs firstTstamp s.1) fun t =>
          { t with newBytes := t.newBytes + r.originalPayloadSize }
      else v

/-- The first loop's body: the transmissions of one range. -/
def addSentTotals (v : List SentTotals) (r : ByteRange) : List SentTotals :=
  r.sentTstampPcap.foldl
    (fun v s =>
      bump {} v (intervalIdx lossAggrMs firstTstamp s.1) fun t =>
        { t with count := t.count + 1, bytes := t.bytes + r.byteCount })
    (addNewBytes lossAggrMs firstTstamp v r)

/-- The time of the first transmission, if it is the first loss of the range. -/
def lostFirstSent (r : ByteRange) : Except Abort (Option Timeval) :=
  match r.lostTstampsTcp with
  | [] => .ok none
  | l :: _ =>
      if 0 < r.packetSentCount.val then
        match r.sentTstampPcap with
        | [] => .error .outOfRange
        | s :: _ => .ok (if l.2 = s.1 then some s.1 else none)
      else .ok none

/-- A lost first transmission counts its payload as new bytes lost. -/
def placeNewBytes (v : List LossInterval) (r : ByteRange) :
    Option Timeval → List LossInterval
  | none => v
  | some ts =>
      bump {} v (intervalIdx lossAggrMs firstTstamp ts) fun l =>
        l.add { newBytes := r.originalPayloadSize }

/-- The entries the second loop adds for one range. -/
def placeLosses (v : List LossInterval) (r : ByteRange) (first : Option Timeval) :
    List LossInterval :=
  r.lostTstampsTcp.foldl
    (fun v p =>
      bump {} v (intervalIdx lossAggrMs firstTstamp p.2) fun l =>
        l.add { cntBytes := 1, allBytes := r.byteCount })
    (placeNewBytes lossAggrMs firstTstamp v r first)

/-- The second loop's body: the losses of one range. -/
def addLosses (v : List LossInterval) (e : ℕ × ByteRange) : Except Abort (List LossInterval) := do
  let first ← lostFirstSent e.2
  return placeLosses lossAggrMs firstTstamp v e.2 first

/-- The last loop, over the indices of `loss`. -/
def setTotals : List LossInterval → List LossInterval → List SentTotals →
    Except Abort (List LossInterval × List LossInterval)
  | allLoss, [], _ => .ok (allLoss, [])
  -- the loop ends with `loss`: totals of later intervals are never copied
  | a :: allLoss, l :: loss, t :: tot => do
      let (allLoss', loss') ← setTotals allLoss loss tot
      return ((a.add l).addTotal t.count t.bytes t.newBytes :: allLoss',
        l.addTotal t.count t.bytes t.newBytes :: loss')
  | _, _, _ => .error .outOfRange

/-- The sent totals of the analysed ranges. -/
def sentTotals (analysed : List (ℕ × ByteRange)) : List SentTotals :=
  analysed.foldl (fun v e => addSentTotals lossAggrMs firstTstamp v e.2) []

/-- Returns `all_loss` and `loss` as the call leaves them. -/
def calculateLossGroupedByInterval (analysed : List (ℕ × ByteRange))
    (allLoss loss : List LossInterval) : Except Abort (List LossInterval × List LossInterval) := do
  let loss ← Run.run (addLosses lossAggrMs firstTstamp) loss analysed
  setTotals (grow {} allLoss (loss.length + 1)) loss (sentTotals lossAggrMs firstTstamp analysed)

end RangeManager

/-! ## The writer -/

/-- What the writer reads of a connection: the ranges between `analyse_range_start` and
`analyse_range_end`, and two results of `calculateRealLoss`. -/
structure AnalysedConnection where
  analysed : List (ℕ × ByteRange)
  analysedSentRangesCount : ℕ
  analysedBytesSent : ℕ

structure LossStatsWriter where
  aggr : List LossInterval := []
  totalCount : ℕ := 0
  totalBytes : ℕ := 0

/-- `writeStats`, without the output file of the single connection. -/
def LossStatsWriter.writeStats (w : LossStatsWriter) (conn : AnalysedConnection) :
    Except Abort LossStatsWriter := do
  let (aggr, _) ←
    RangeManager.calculateLossGroupedByInterval lossAggrMs firstTstamp conn.analysed w.aggr []
  return {
    aggr
    totalCount := w.totalCount + conn.analysedSentRangesCount
    totalBytes := w.totalBytes + conn.analysedBytesSent }

/-- `begin()` and one `writeStats` for every connection. -/
def writeLossStats (conns : List AnalysedConnection) : Except Abort LossStatsWriter :=
  Run.run (LossStatsWriter.writeStats lossAggrMs firstTstamp) {} conns

/-! ## What the intervals of one connection hold -/

namespace ByteRange

/-- The number of transmissions of the range in interval `i`. -/
def sentIn (r : ByteRange) (i : ℕ) : ℕ :=
  (r.sentTstampPcap.filter fun s => intervalIdx lossAggrMs firstTstamp s.1 = i).length

end ByteRange

/-- The number of transmissions of analysed ranges in interval `i`. -/
def transmissionsIn (analysed : List (ℕ × ByteRange)) (i : ℕ) : ℕ :=
  (analysed.map fun e => e.2.sentIn lossAggrMs firstTstamp i).sum

/-- The number of bytes these transmissions carry. -/
def bytesIn (analysed : List (ℕ × ByteRange)) (i : ℕ) : ℕ :=
  (analysed.map fun e => e.2.byteCount * e.2.sentIn lossAggrMs firstTstamp i).sum

/-- A transmission in interval `i` or later was lost. -/
def LostFrom (analysed : List (ℕ × ByteRange)) (i : ℕ) : Prop :=
  ∃ e ∈ analysed, ∃ l ∈ e.2.lostTstampsTcp, i ≤ intervalIdx lossAggrMs firstTstamp l.2

instance (analysed : List (ℕ × ByteRange)) (i : ℕ) :
    Decidable (LostFrom lossAggrMs firstTstamp analysed i) :=
  inferInstanceAs (Decidable (∃ _ ∈ _, ∃ _ ∈ _, _))

/-- Interval `i` exists in the aggregate: interval 0 does with any connection, a later one if some
connection has a loss in the interval before it or still later. -/
def InAggregate (conns : List AnalysedConnection) (i : ℕ) : Prop :=
  ∃ c ∈ conns, i = 0 ∨ LostFrom lossAggrMs firstTstamp c.analysed (i - 1)

/-- Every transmission in an interval of the aggregate is followed, in that interval or later, by a
lost transmission of the same connection. -/
def LosesAfterSending (conns : List AnalysedConnection) : Prop :=
  ∀ c ∈ conns, ∀ e ∈ c.analysed, ∀ s ∈ e.2.sentTstampPcap,
    InAggregate lossAggrMs firstTstamp conns (intervalIdx lossAggrMs firstTstamp s.1) →
      LostFrom lossAggrMs firstTstamp c.analysed (intervalIdx lossAggrMs firstTstamp s.1)

instance (conns : List AnalysedConnection) (i : ℕ) :
    Decidable (InAggregate lossAggrMs firstTstamp conns i) :=
  inferInstanceAs (Decidable (∃ _ ∈ _, _))

instance (conns : List AnalysedConnection) :
    Decidable (LosesAfterSending lossAggrMs firstTstamp conns) :=
  inferInstanceAs (Decidable (∀ _ ∈ _, ∀ _ ∈ _, ∀ _ ∈ _, _))

variable {lossAggrMs firstTstamp}

theorem ByteRange.sum_sentIn (r : ByteRange) (k i : ℕ) :
    (r.sentTstampPcap.map fun s =>
      if intervalIdx lossAggrMs firstTstamp s.1 = i then k else 0).sum =
      k * r.sentIn lossAggrMs firstTstamp i :=
  sum_ite_const r.sentTstampPcap _ k

namespace RangeManager

/-- An observation of the entries that the new bytes do not touch sees only the transmissions. -/
theorem addSentTotals_getD {π : SentTotals → ℕ} {r : ByteRange} {k : ℕ}
    (hnew : ∀ t n, π { t with newBytes := n } = π t)
    (hsent : ∀ t, π { t with count := t.count + 1, bytes := t.bytes + r.byteCount } = π t + k)
    (v : List SentTotals) (i : ℕ) :
    π ((addSentTotals lossAggrMs firstTstamp v r).getD i {}) =
      π (v.getD i {}) + k * r.sentIn lossAggrMs firstTstamp i := by
  have hfirst : π ((addNewBytes lossAggrMs firstTstamp v r).getD i {}) = π (v.getD i {}) := by
    rw [addNewBytes]
    split
    · rfl
    · split
      · rw [getD_bump]
        split
        · exact hnew _ _
        · rfl
      · rfl
  rw [addSentTotals, ← hfirst, ← r.sum_sentIn k i]
  apply foldl_adds fun v : List SentTotals => π (v.getD i {})
  intro v s
  rw [getD_bump]
  split
  · exact hsent _
  · rfl

variable (lossAggrMs firstTstamp) in
theorem sentTotals_getD (analysed : List (ℕ × ByteRange)) (i : ℕ) :
    ((sentTotals lossAggrMs firstTstamp analysed).getD i {}).count =
        transmissionsIn lossAggrMs firstTstamp analysed i ∧
      ((sentTotals lossAggrMs firstTstamp analysed).getD i {}).bytes =
        bytesIn lossAggrMs firstTstamp analysed i := by
  constructor
  · rw [sentTotals, transmissionsIn]
    refine (foldl_adds (fun v : List SentTotals => (v.getD i {}).count) _ ?_ _ _).trans
      (Nat.zero_add _)
    intro v e
    rw [addSentTotals_getD (π := SentTotals.count) (k := 1) (fun _ _ => rfl) (fun _ => rfl),
      one_mul]
  · rw [sentTotals, bytesIn]
    refine (foldl_adds (fun v : List SentTotals => (v.getD i {}).bytes) _ ?_ _ _).trans
      (Nat.zero_add _)
    intro v e
    exact addSentTotals_getD (π := SentTotals.bytes) (fun _ _ => rfl) (fun _ => rfl) v i

/-! ### The losses -/

theorem lostFirstSent_mem {r : ByteRange} {ts : Timeval} (h : lostFirstSent r = .ok (some ts)) :
    ∃ l ∈ r.lostTstampsTcp, l.2 = ts := by
  unfold lostFirstSent at h
  split at h
  · cases h
  · next l rest hlost =>
      split at h
      · split at h
        · cases h
        · next s _ _ =>
            split at h
            · next hl =>
                cases h
                exact ⟨l, by rw [hlost]; exact List.mem_cons_self, hl⟩
            · cases h
      · cases h

/-- The buckets for losses reach exactly to the last lost transmission: the bucket of a lost first
transmission is the one of a loss. -/
theorem lt_length_placeLosses (v : List LossInterval) {r : ByteRange} {first : Option Timeval}
    (hfirst : lostFirstSent r = .ok first) {i : ℕ} :
    i < (placeLosses lossAggrMs firstTstamp v r first).length ↔
      i < v.length ∨ ∃ l ∈ r.lostTstampsTcp, i ≤ intervalIdx lossAggrMs firstTstamp l.2 := by
  have hfold : i < (placeLosses lossAggrMs firstTstamp v r first).length ↔
      i < (placeNewBytes lossAggrMs firstTstamp v r first).length ∨
        ∃ l ∈ r.lostTstampsTcp, i ≤ intervalIdx lossAggrMs firstTstamp l.2 := by
    apply foldl_reaches (P := fun u : List LossInterval => i < u.length)
    intro v p
    rw [length_bump, lt_max_iff, Nat.lt_succ_iff]
  rw [hfold]
  cases first with
  | none => exact Iff.rfl
  | some ts =>
      obtain ⟨l, hl, rfl⟩ := lostFirstSent_mem hfirst
      rw [placeNewBytes, length_bump, lt_max_iff, Nat.lt_succ_iff, or_assoc]
      constructor
      · rintro (h | h | h)
        · exact Or.inl h
        · exact Or.inr ⟨l, hl, h⟩
        · exact Or.inr h
      · exact fun h => h.imp_right Or.inr

theorem sum_placeLosses {π : LossInterval → ℕ} (r : ByteRange) {k : ℕ} (hz : π {} = 0)
    (hnew : ∀ l, π (l.add { newBytes := r.originalPayloadSize }) = π l)
    (hlost : ∀ l, π (l.add { cntBytes := 1, allBytes := r.byteCount }) = π l + k)
    (v : List LossInterval) (first : Option Timeval) :
    ((placeLosses lossAggrMs firstTstamp v r first).map π).sum =
      (v.map π).sum + k * r.lostTstampsTcp.length := by
  have hfirst :
      ((placeNewBytes lossAggrMs firstTstamp v r first).map π).sum = (v.map π).sum := by
    cases first with
    | none => rfl
    | some ts => exact sum_bump {} hz (d := 0) hnew v _
  have hfold := foldl_adds
    (F := fun v p =>
      bump {} v (intervalIdx lossAggrMs firstTstamp p.2) fun l =>
        l.add { cntBytes := 1, allBytes := r.byteCount })
    (fun v : List LossInterval => (v.map π).sum) (fun _ : ℕ × Timeval => k)
    (fun v _ => sum_bump {} hz hlost v _) (placeNewBytes lossAggrMs firstTstamp v r first)
    r.lostTstampsTcp
  rw [placeLosses, hfold, hfirst, List.map_const', List.sum_replicate, nsmul_eq_mul, Nat.mul_comm]
  rfl

theorem lt_length_losses {analysed : List (ℕ × ByteRange)} {v loss : List LossInterval}
    (h : Run.run (addLosses lossAggrMs firstTstamp) v analysed = .ok loss) {i : ℕ} :
    i < loss.length ↔ i < v.length ∨ LostFrom lossAggrMs firstTstamp analysed i := by
  refine Run.invariant (d := [])
    (I := fun loss d => i < loss.length ↔ i < v.length ∨ LostFrom lossAggrMs firstTstamp d i)
    ?_ ?_ (Run.steps_true v analysed) h
  · intro u e u' d hu _ hstep
    obtain ⟨first, hfirst, hplace⟩ := Run.exists_of_bind_ok hstep
    cases hplace
    rw [lt_length_placeLosses u hfirst, hu, or_assoc]
    simp [LostFrom, or_and_right, exists_or]
  · simp [LostFrom]

/-! ### The last loop -/

theorem setTotals_length {allLoss loss allLoss' loss' : List LossInterval} {tot : List SentTotals}
    (h : setTotals allLoss loss tot = .ok (allLoss', loss')) :
    allLoss'.length = allLoss.length ∧ loss'.length = loss.length := by
  induction allLoss, loss, tot using setTotals.induct generalizing allLoss' loss' with
  | case1 allLoss tot =>
      rw [setTotals] at h
      cases h
      exact ⟨rfl, rfl⟩
  | case2 a allLoss l loss t tot ih =>
      obtain ⟨⟨as, ls⟩, hrec, heq⟩ := Run.exists_of_bind_ok h
      cases heq
      obtain ⟨ha, hl⟩ := ih hrec
      exact ⟨congrArg (· + 1) ha, congrArg (· + 1) hl⟩
  | case3 => simp_all [setTotals]

/-- The totals of interval `i` are only added when `i` is an index of `loss`. -/
theorem setTotals_getD {π : LossInterval → ℕ} {κ : SentTotals → ℕ} (hadd : ∀ a l, π (a.add l) = π a)
    (htot : ∀ a t, π (a.addTotal t.count t.bytes t.newBytes) = π a + κ t)
    {allLoss loss allLoss' loss' : List LossInterval} {tot : List SentTotals}
    (h : setTotals allLoss loss tot = .ok (allLoss', loss')) (i : ℕ) :
    π (allLoss'.getD i {}) =
      π (allLoss.getD i {}) + if i < loss.length then κ (tot.getD i {}) else 0 := by
  induction allLoss, loss, tot using setTotals.induct generalizing allLoss' loss' i with
  | case1 allLoss tot =>
      rw [setTotals] at h
      cases h
      rfl
  | case2 a allLoss l loss t tot ih =>
      obtain ⟨⟨as, ls⟩, hrec, heq⟩ := Run.exists_of_bind_ok h
      cases heq
      cases i with
      | zero => simp [htot, hadd]
      | succ i => simpa using ih hrec i
  | case3 => simp_all [setTotals]

theorem setTotals_ok {allLoss loss : List LossInterval} {tot : List SentTotals}
    (hall : loss.length ≤ allLoss.length) (htot : loss.length ≤ tot.length) :
    ∃ res, setTotals allLoss loss tot = .ok res := by
  induction loss generalizing allLoss tot with
  | nil => exact ⟨_, by rw [setTotals]⟩
  | cons l loss ih =>
      cases allLoss with
      | nil => cases hall
      | cons a allLoss =>
          cases tot with
          | nil => cases htot
          | cons t tot =>
              obtain ⟨res, hres⟩ := ih (Nat.le_of_succ_le_succ hall) (Nat.le_of_succ_le_succ htot)
              rw [setTotals, hres]
              exact ⟨_, rfl⟩

/-- The totals are added beside the losses. -/
theorem setTotals_map {π : LossInterval → ℕ} (htot : ∀ l a b n, π (l.addTotal a b n) = π l)
    {allLoss loss allLoss' loss' : List LossInterval} {tot : List SentTotals}
    (h : setTotals allLoss loss tot = .ok (allLoss', loss')) : loss'.map π = loss.map π := by
  induction allLoss, loss, tot using setTotals.induct generalizing allLoss' loss' with
  | case1 allLoss tot =>
      rw [setTotals] at h
      cases h
      rfl
  | case2 a allLoss l loss t tot ih =>
      obtain ⟨⟨as, ls⟩, hrec, heq⟩ := Run.exists_of_bind_ok h
      cases heq
      rw [List.map_cons, List.map_cons, htot, ih hrec]
  | case3 => simp_all [setTotals]

/-! ### The sum over all intervals -/

theorem lt_length_addSentTotals (v : List SentTotals) (r : ByteRange) {i : ℕ} :
    i < (addSentTotals lossAggrMs firstTstamp v r).length ↔
      i < v.length ∨ ∃ s ∈ r.sentTstampPcap, i ≤ intervalIdx lossAggrMs firstTstamp s.1 := by
  have hfold : i < (addSentTotals lossAggrMs firstTstamp v r).length ↔
      i < (addNewBytes lossAggrMs firstTstamp v r).length ∨
        ∃ s ∈ r.sentTstampPcap, i ≤ intervalIdx lossAggrMs firstTstamp s.1 := by
    apply foldl_reaches (P := fun u : List SentTotals => i < u.length)
    intro v s
    rw [length_bump, lt_max_iff, Nat.lt_succ_iff]
  rw [hfold, addNewBytes]
  cases hsent : r.sentTstampPcap with
  | nil => exact Iff.rfl
  | cons s rest =>
      dsimp only
      split
      · rw [length_bump, lt_max_iff, Nat.lt_succ_iff, or_assoc]
        constructor
        · rintro (h | h | h)
          · exact Or.inl h
          · exact Or.inr ⟨s, List.mem_cons_self, h⟩
          · exact Or.inr h
        · exact fun h => h.imp_right Or.inr
      · exact Iff.rfl

theorem lt_length_sentTotals {analysed : List (ℕ × ByteRange)} {i : ℕ} :
    i < (sentTotals lossAggrMs firstTstamp analysed).length ↔
      ∃ e ∈ analysed, ∃ s ∈ e.2.sentTstampPcap, i ≤ intervalIdx lossAggrMs firstTstamp s.1 := by
  have hfold := foldl_reaches
    (F := fun v (e : ℕ × ByteRange) => addSentTotals lossAggrMs firstTstamp v e.2)
    (P := fun u : List SentTotals => i < u.length)
    (fun v e => lt_length_addSentTotals v e.2) [] analysed
  refine hfold.trans ⟨fun h => h.resolve_left (Nat.not_lt_zero i), Or.inr⟩

theorem lostFirstSent_ok {r : ByteRange}
    (h : ∀ l ∈ r.lostTstampsTcp, ∃ t ∈ r.sentTstampPcap, t.1 = l.2) :
    ∃ first, lostFirstSent r = .ok first := by
  unfold lostFirstSent
  split
  · exact ⟨_, rfl⟩
  · next l rest hlost =>
      obtain ⟨t, ht, -⟩ := h l (by rw [hlost]; exact List.mem_cons_self)
      split
      · split
        · next hnil =>
            rw [hnil] at ht
            cases ht
        · exact ⟨_, rfl⟩
      · exact ⟨_, rfl⟩

/-- When every loss carries the time of a transmission, the call returns, and its intervals hold
every loss once. -/
theorem calculateLossGroupedByInterval_sum (lossAggrMs : ℕ) (firstTstamp : ℤ)
    {analysed : List (ℕ × ByteRange)} (allLoss : List LossInterval)
    (h : ∀ e ∈ analysed, ∀ l ∈ e.2.lostTstampsTcp, ∃ t ∈ e.2.sentTstampPcap, t.1 = l.2) :
    ∃ allLoss' loss', calculateLossGroupedByInterval lossAggrMs firstTstamp analysed allLoss [] =
        .ok (allLoss', loss') ∧
      (loss'.map LossInterval.cntBytes).sum =
        (analysed.map fun e => e.2.lostTstampsTcp.length).sum ∧
      (loss'.map LossInterval.allBytes).sum =
        (analysed.map fun e => e.2.byteCount * e.2.lostTstampsTcp.length).sum := by
  have hsteps : Run.Steps (addLosses lossAggrMs firstTstamp)
      (fun _ e => True ∧ ∀ l ∈ e.2.lostTstampsTcp, ∃ t ∈ e.2.sentTstampPcap, t.1 = l.2) []
      analysed := (Run.steps_true _ analysed).and_forall h
  -- the first loop, range by range: what is placed so far adds up to the losses read so far
  have hrun := Run.exists_ok (d := [])
    (I := fun loss d =>
      (List.map LossInterval.cntBytes loss).sum =
          (d.map fun e : ℕ × ByteRange => e.2.lostTstampsTcp.length).sum ∧
        (List.map LossInterval.allBytes loss).sum =
          (d.map fun e : ℕ × ByteRange => e.2.byteCount * e.2.lostTstampsTcp.length).sum)
    (fun u e d hu he => ?_) ⟨rfl, rfl⟩ hsteps
  · obtain ⟨loss, hloss, hcnt, hbytes⟩ := hrun
    -- the last interval with a loss is one with a transmission, so the totals reach it
    have hlen : loss.length ≤ (sentTotals lossAggrMs firstTstamp analysed).length := by
      by_contra hlt
      rw [Nat.not_le, lt_length_losses hloss] at hlt
      obtain ⟨e, he, l, hl, hle⟩ := hlt.resolve_left (Nat.not_lt_zero _)
      obtain ⟨t, ht, htl⟩ := h e he l hl
      rw [← htl] at hle
      exact lt_irrefl _ (lt_length_sentTotals.mpr ⟨e, he, t, ht, hle⟩)
    have hall : loss.length ≤ (grow {} allLoss (loss.length + 1)).length := by
      rw [length_grow]
      omega
    obtain ⟨⟨allLoss', loss'⟩, hset⟩ := setTotals_ok hall hlen
    refine ⟨allLoss', loss', ?_, ?_, ?_⟩
    · unfold calculateLossGroupedByInterval
      rw [hloss, Run.ok_bind]
      exact hset
    · rw [setTotals_map (fun _ _ _ _ => rfl) hset]
      exact hcnt
    · rw [setTotals_map (fun _ _ _ _ => rfl) hset]
      exact hbytes
  · obtain ⟨first, hfirst⟩ := lostFirstSent_ok he.2
    refine ⟨placeLosses lossAggrMs firstTstamp u e.2 first, ?_, ?_, ?_⟩
    · unfold addLosses
      rw [hfirst]
      rfl
    · rw [sum_placeLosses (π := LossInterval.cntBytes) (k := 1) e.2 rfl (fun _ => rfl)
        (fun _ => rfl), hu.1, one_mul]
      simp
    · rw [sum_placeLosses (π := LossInterval.allBytes) e.2 rfl (fun _ => rfl) (fun _ => rfl), hu.2]
      simp

end RangeManager

/-! ## The aggregate over all connections -/

/-- What one call adds to the aggregate. -/
theorem RangeManager.calculateLossGroupedByInterval_aggr {analysed : List (ℕ × ByteRange)}
    {allLoss allLoss' loss' : List LossInterval}
    (h : calculateLossGroupedByInterval lossAggrMs firstTstamp analysed allLoss [] =
      .ok (allLoss', loss')) (i : ℕ) :
    (i < allLoss'.length ↔
        i < allLoss.length ∨ i = 0 ∨ LostFrom lossAggrMs firstTstamp analysed (i - 1)) ∧
      (allLoss'.getD i {}).totCntBytes =
        (allLoss.getD i {}).totCntBytes +
          (if LostFrom lossAggrMs firstTstamp analysed i then
            transmissionsIn lossAggrMs firstTstamp analysed i else 0) ∧
      (allLoss'.getD i {}).totAllBytes =
        (allLoss.getD i {}).totAllBytes +
          (if LostFrom lossAggrMs firstTstamp analysed i then
            bytesIn lossAggrMs firstTstamp analysed i else 0) := by
  obtain ⟨loss, hloss, hset⟩ := Run.exists_of_bind_ok h
  have hlt : ∀ j, j < loss.length ↔ LostFrom lossAggrMs firstTstamp analysed j := by
    intro j
    rw [lt_length_losses hloss]
    simp
  obtain ⟨hcount, hbytes⟩ := sentTotals_getD lossAggrMs firstTstamp analysed i
  refine ⟨?_, ?_, ?_⟩
  · rw [(setTotals_length hset).1, length_grow, lt_max_iff]
    refine or_congr_right ?_
    cases i with
    | zero => simp
    | succ i => simp [hlt]
  · rw [setTotals_getD (π := LossInterval.totCntBytes) (κ := SentTotals.count)
      (fun _ _ => rfl) (fun _ _ => rfl) hset i, getD_grow, hcount]
    simp only [hlt]
  · rw [setTotals_getD (π := LossInterval.totAllBytes) (κ := SentTotals.bytes)
      (fun _ _ => rfl) (fun _ _ => rfl) hset i, getD_grow, hbytes]
    simp only [hlt]

variable (lossAggrMs firstTstamp) in
/-- The aggregate after the connections `conns`: each counts in an interval only if it has a loss
there or later. -/
structure AggrTotals (aggr : List LossInterval) (conns : List AnalysedConnection) : Prop where
  covered : ∀ i, i < aggr.length ↔ InAggregate lossAggrMs firstTstamp conns i
  count : ∀ i, (aggr.getD i {}).totCntBytes =
    (conns.map fun c => if LostFrom lossAggrMs firstTstamp c.analysed i then
      transmissionsIn lossAggrMs firstTstamp c.analysed i else 0).sum
  bytes : ∀ i, (aggr.getD i {}).totAllBytes =
    (conns.map fun c => if LostFrom lossAggrMs firstTstamp c.analysed i then
      bytesIn lossAggrMs firstTstamp c.analysed i else 0).sum

theorem LossStatsWriter.writeStats_aggrTotals {w w' : LossStatsWriter} {c : AnalysedConnection}
    {conns : List AnalysedConnection}
    (hinv : AggrTotals lossAggrMs firstTstamp w.aggr conns)
    (h : w.writeStats lossAggrMs firstTstamp c = .ok w') :
    AggrTotals lossAggrMs firstTstamp w'.aggr (conns ++ [c]) := by
  obtain ⟨⟨aggr, loss⟩, hcalc, hw'⟩ := Run.exists_of_bind_ok h
  cases hw'
  have hstep := RangeManager.calculateLossGroupedByInterval_aggr hcalc
  constructor
  · intro i
    rw [(hstep i).1, hinv.covered i]
    simp [InAggregate, or_and_right, exists_or]
  · intro i
    rw [(hstep i).2.1, hinv.count i, List.map_append, List.sum_append]
    simp
  · intro i
    rw [(hstep i).2.2, hinv.bytes i, List.map_append, List.sum_append]
    simp

theorem writeLossStats_aggrTotals {conns : List AnalysedConnection} {w : LossStatsWriter}
    (h : writeLossStats lossAggrMs firstTstamp conns = .ok w) :
    AggrTotals lossAggrMs firstTstamp w.aggr conns := by
  refine Run.invariant (d := [])
    (I := fun w d => AggrTotals lossAggrMs firstTstamp (LossStatsWriter.aggr w) d)
    (fun w c w' d hinv _ hstep => LossStatsWriter.writeStats_aggrTotals hinv hstep) ?_
    (Run.steps_true _ conns) h
  constructor
  · simp [InAggregate]
  · exact fun i => rfl
  · exact fun i => rfl

theorem transmissionsIn_eq_zero {analysed : List (ℕ × ByteRange)} {i : ℕ} :
    transmissionsIn lossAggrMs firstTstamp analysed i = 0 ↔
      ∀ e ∈ analysed, ∀ s ∈ e.2.sentTstampPcap, intervalIdx lossAggrMs firstTstamp s.1 ≠ i := by
  have hrange : ∀ r : ByteRange, r.sentIn lossAggrMs firstTstamp i = 0 ↔
      ∀ s ∈ r.sentTstampPcap, intervalIdx lossAggrMs firstTstamp s.1 ≠ i := by
    intro r
    simp [ByteRange.sentIn]
  rw [transmissionsIn, List.sum_eq_zero_iff_forall_eq_nat, List.forall_mem_map]
  exact forall₂_congr fun e _ => hrange e.2

theorem bytesIn_eq_zero {analysed : List (ℕ × ByteRange)} {i : ℕ}
    (h : transmissionsIn lossAggrMs firstTstamp analysed i = 0) :
    bytesIn lossAggrMs firstTstamp analysed i = 0 := by
  rw [transmissionsIn, List.sum_eq_zero_iff_forall_eq_nat, List.forall_mem_map] at h
  rw [bytesIn, List.sum_eq_zero_iff_forall_eq_nat, List.forall_mem_map]
  intro e he
  rw [h e he, Nat.mul_zero]

/-- The totals of the aggregate are the transmissions of all connections, in every interval, exactly
when no connection sends after its last lost transmission: the totals of an interval are copied
only as far as the connection's own loss vector reaches. -/
theorem writeLossStats_totals_iff (lossAggrMs : ℕ) (firstTstamp : ℤ)
    {conns : List AnalysedConnection} {w : LossStatsWriter}
    (h : writeLossStats lossAggrMs firstTstamp conns = .ok w) :
    (∀ i < w.aggr.length,
      (w.aggr.getD i {}).totCntBytes =
          (conns.map fun c => transmissionsIn lossAggrMs firstTstamp c.analysed i).sum ∧
        (w.aggr.getD i {}).totAllBytes =
          (conns.map fun c => bytesIn lossAggrMs firstTstamp c.analysed i).sum) ↔
      LosesAfterSending lossAggrMs firstTstamp conns := by
  have hinv := writeLossStats_aggrTotals h
  have hcount : ∀ i,
      ((w.aggr.getD i {}).totCntBytes =
        (conns.map fun c => transmissionsIn lossAggrMs firstTstamp c.analysed i).sum) ↔
      ∀ c ∈ conns, ¬LostFrom lossAggrMs firstTstamp c.analysed i →
        transmissionsIn lossAggrMs firstTstamp c.analysed i = 0 := by
    intro i
    rw [hinv.count i]
    exact sum_ite_eq_sum_iff conns _ _
  constructor
  · -- an interval with a transmission but no later loss of its connection has a total too small
    intro htot c hc e he s hs hi
    by_contra hlost
    have hlt := (hinv.covered _).mpr hi
    have hzero := (hcount _).mp (htot _ hlt).1 c hc hlost
    exact transmissionsIn_eq_zero.mp hzero e he s hs rfl
  · intro hloses i hi
    have hzero : ∀ c ∈ conns, ¬LostFrom lossAggrMs firstTstamp c.analysed i →
        transmissionsIn lossAggrMs firstTstamp c.analysed i = 0 := by
      intro c hc hlost
      rw [transmissionsIn_eq_zero]
      rintro e he s hs rfl
      exact hlost (hloses c hc e he s hs ((hinv.covered _).mp hi))
    refine ⟨(hcount i).mpr hzero, ?_⟩
    rw [hinv.bytes i]
    exact (sum_ite_eq_sum_iff conns _ _).mpr fun c hc hl => bytesIn_eq_zero (hzero c hc hl)

/-- One packet of five bytes, sent at `ts`. -/
def sentAt (ts : Timeval) : ByteRange :=
  ({ ByteRange.blank 0 5 with byteCount := 5, originalPayloadSize := 5 } : ByteRange).increaseSent
    1 0 ts false .pkt

/-- A connection that sends one packet, and whether the receiver gets it. -/
def onePacket (ts : Timeval) (received : Bool) : AnalysedConnection where
  analysed := [(0, if received then (sentAt ts).increaseReceived 1 ts true else sentAt ts)]
  analysedSentRangesCount := 1
  analysedBytesSent := 5

/-- Two connections that both lose their only packet, in different intervals. -/
theorem writeLossStats_totals_both_lost :
    ∃ w, writeLossStats 1000 0 [onePacket ⟨0, 0⟩ false, onePacket ⟨1, 0⟩ false] = .ok w ∧
      ∀ i < w.aggr.length, (w.aggr.getD i {}).totCntBytes =
        ([onePacket ⟨0, 0⟩ false, onePacket ⟨1, 0⟩ false].map fun c =>
          transmissionsIn 1000 0 c.analysed i).sum := by
  have hw : writeLossStats 1000 0 [onePacket ⟨0, 0⟩ false, onePacket ⟨1, 0⟩ false] = .ok
      { aggr := [⟨1, 5, 5, 1, 5, 5⟩, ⟨1, 5, 5, 1, 5, 5⟩, {}], totalCount := 2, totalBytes := 10 } := by
    rfl
  exact ⟨_, hw, fun i hi => ((writeLossStats_totals_iff 1000 0 hw).mpr (by decide) i hi).1⟩

/-- Next to a connection that loses its packet, the packet of a connection without losses is
missing from the totals of the interval in which both were sent. -/
theorem writeLossStats_misses_lossless :
    ∃ w, writeLossStats 1000 0 [onePacket ⟨0, 0⟩ false, onePacket ⟨0, 0⟩ true] = .ok w ∧
      0 < w.aggr.length ∧
      (w.aggr.getD 0 {}).totCntBytes = 1 ∧
      ([onePacket ⟨0, 0⟩ false, onePacket ⟨0, 0⟩ true].map fun c =>
        transmissionsIn 1000 0 c.analysed 0).sum = 2 :=
  ⟨{ aggr := [⟨1, 5, 5, 1, 5, 5⟩, {}], totalCount := 2, totalBytes := 10 }, by rfl, by decide,
    by rfl, by rfl⟩

end AnalyseTCP
