import AnalyseTCP.LatencyVariation
import AnalyseTCP.LastSeq
import AnalyseTCP.SentTimes
import AnalyseTCP.Refinement
import Mathlib.Algebra.Order.BigOperators.Group.List

/-!
# `makeByteLatencyVariationCDF` and `writeByteLatencyVariationCDF`

The bytes of the analysed ranges, collected by their relative delay, and the cumulative fractions
that are printed from them.  The divisor is `lastSeq`: a SYN and every gap of the capture move it
without adding a byte to a range.  A `double` is an exact rational.
-/

namespace AnalyseTCP

/-- `element->second + n`, in an `int`. -/
def addInt (x : ℤ) (n : ℕ) : ℤ := (x + n).bmod (2 ^ 32)

/-- Add bytes to a bucket, or initiate a new one. -/
def addBytes (buckets : OrdMap ℤ ℤ) (diff : ℤ) (n : ℕ) : OrdMap ℤ ℤ :=
  match buckets.find? diff with
  | some _ => buckets.modify diff fun x => addInt x n
  | none => buckets.insert diff n

/-- The tables of one connection, and those of `GlobStats`. -/
structure CdfTables where
  byteLatencyVariationCDFValues : OrdMap ℤ ℤ := OrdMap.empty
  globValues : OrdMap ℤ ℤ := OrdMap.empty
  totNumBytes : ℕ := 0

namespace RangeManager

/-- `lastSeq` is the last relative seq number. -/
def getNumBytes (rm : RangeManager) : ℕ := rm.lastSeq

/-- The body of the loop of `makeByteLatencyVariationCDF`. -/
def addRangeBytes (aggregate : Bool) (lowestRecvDiff : ℤ) (t : CdfTables) (d : DiffRange) :
    CdfTables :=
  let diff := d.diff - lowestRecvDiff
  { t with
    byteLatencyVariationCDFValues :=
      addBytes t.byteLatencyVariationCDFValues diff d.range.byteCount
    globValues := if aggregate then addBytes t.globValues diff d.range.byteCount
      else t.globValues }

/-- The call on the ranges that `calculateLatencyVariation` left, over the analysed interval that
starts with the entry number `start` and has `count` of them. -/
def makeByteLatencyVariationCDF (rm : RangeManager) (aggregate : Bool) (start count : ℕ)
    (v : LatencyVariation) (t : CdfTables) : CdfTables :=
  let t := ((v.ranges.drop start).take count).foldl (addRangeBytes aggregate v.lowestRecvDiff) t
  { t with totNumBytes := add64 t.totNumBytes rm.getNumBytes }

/-- The lines of `writeByteLatencyVariationCDF`, a relative delay and `cdfSum` each. -/
def cdfLines (numBytes : ℕ) : ℚ → List (ℤ × ℤ) → List (ℤ × ℚ)
  | _, [] => []
  | cdfSum, (time, bytes) :: l =>
      let cdfSum := cdfSum + bytes / numBytes
      (time, cdfSum) :: cdfLines numBytes cdfSum l

/-- What is written to the file: the drift, then the lines. -/
def writeByteLatencyVariationCDF (rm : RangeManager) (drift : ℚ) (t : CdfTables) :
    ℚ × List (ℤ × ℚ) :=
  (drift, cdfLines rm.getNumBytes 0 t.byteLatencyVariationCDFValues.entries)

end RangeManager

/-! ## The buckets -/

/-- All bytes in the buckets. -/
def bucketBytes (buckets : OrdMap ℤ ℤ) : ℤ := (buckets.entries.map Prod.snd).sum

/-- No bucket is negative, and all together hold `n` bytes. -/
structure Holding (buckets : OrdMap ℤ ℤ) (n : ℕ) : Prop where
  nonneg : ∀ b ∈ buckets.entries, 0 ≤ b.2
  sum : bucketBytes buckets = n

theorem addInt_eq {x : ℤ} {n : ℕ} (hx : 0 ≤ x) (hlt : x + n < 2 ^ 31) : addInt x n = x + n := by
  unfold addInt
  apply Int.bmod_eq_of_le <;> omega

theorem sum_nonneg_of_forall {l : List (ℤ × ℤ)} (h : ∀ b ∈ l, 0 ≤ b.2) :
    0 ≤ (l.map Prod.snd).sum := by
  apply List.sum_nonneg
  intro x hx
  obtain ⟨b, hb, rfl⟩ := List.mem_map.mp hx
  exact h b hb

theorem holding_empty : Holding OrdMap.empty 0 := ⟨fun _ hb => (by cases hb), rfl⟩

/-- As long as all bytes fit into an `int`, none is lost. -/
theorem Holding.addBytes {buckets : OrdMap ℤ ℤ} {n m : ℕ} (h : Holding buckets n) (diff : ℤ)
    (hlt : n + m < 2 ^ 31) : Holding (addBytes buckets diff m) (n + m) := by
  obtain ⟨hnonneg, hsum⟩ := h
  unfold bucketBytes at hsum
  unfold AnalyseTCP.addBytes
  cases hfind : buckets.find? diff with
  | none =>
    dsimp only
    have hins := OrdMap.entries_insert_of_find?_eq_none hfind (m : ℤ)
    rw [← buckets.below_append_atLeast diff, List.map_append, List.sum_append] at hsum
    refine ⟨fun b hb => ?_, ?_⟩
    · rcases OrdMap.mem_insert hb with rfl | hb
      · exact Int.natCast_nonneg m
      · exact hnonneg b hb
    · unfold bucketBytes
      rw [hins, List.map_append, List.sum_append, List.map_cons, List.sum_cons]
      dsimp only
      omega
  | some x =>
    dsimp only
    -- one bucket grows; the others are not negative, so it stays below the bound of all bytes
    obtain ⟨pre, post, hcut⟩ := OrdMap.exists_cut_of_find? hfind
    have hmod := OrdMap.entries_modify_of_cut hcut fun x => addInt x m
    rw [hcut] at hnonneg hsum
    rw [List.map_append, List.sum_append, List.map_cons, List.sum_cons] at hsum
    dsimp only at hsum
    have hx : 0 ≤ x := hnonneg (diff, x) (by simp)
    have hpre := sum_nonneg_of_forall fun b hb => hnonneg b (List.mem_append_left _ hb)
    have hpost := sum_nonneg_of_forall fun b hb =>
      hnonneg b (List.mem_append_right _ (List.mem_cons_of_mem _ hb))
    have hadd : addInt x m = x + m := addInt_eq hx (by omega)
    rw [hadd] at hmod
    refine ⟨fun b hb => ?_, ?_⟩
    · rw [hmod] at hb
      rcases List.mem_append.mp hb with hb | hb
      · exact hnonneg b (List.mem_append_left _ hb)
      · rcases List.mem_cons.mp hb with rfl | hb
        · dsimp only
          omega
        · exact hnonneg b (List.mem_append_right _ (List.mem_cons_of_mem _ hb))
    · unfold bucketBytes
      rw [hmod, List.map_append, List.sum_append, List.map_cons, List.sum_cons]
      dsimp only
      omega

namespace RangeManager

/-- The loop puts the bytes of every range into some bucket. -/
theorem foldl_addRangeBytes_holding (aggregate : Bool) (lowest : ℤ) (ranges : List DiffRange)
    {t : CdfTables} {n : ℕ} (h : Holding t.byteLatencyVariationCDFValues n)
    (hlt : n + (ranges.map fun d => d.range.byteCount).sum < 2 ^ 31) :
    Holding (ranges.foldl (addRangeBytes aggregate lowest) t).byteLatencyVariationCDFValues
      (n + (ranges.map fun d => d.range.byteCount).sum) := by
  induction ranges generalizing t n with
  | nil => exact h
  | cons d ranges ih =>
    rw [List.map_cons, List.sum_cons, ← Nat.add_assoc] at hlt ⊢
    rw [List.foldl_cons]
    exact ih (h.addBytes (d.diff - lowest) (by omega)) hlt

/-! ## The lines -/

section Lines

variable {numBytes : ℕ} {cdfSum : ℚ} {l : List (ℤ × ℤ)}

theorem le_cdfLines (h : ∀ b ∈ l, 0 ≤ b.2) :
    ∀ line ∈ cdfLines numBytes cdfSum l, cdfSum ≤ line.2 := by
  induction l generalizing cdfSum with
  | nil => intro line hline; cases hline
  | cons b l ih =>
    obtain ⟨hb, hl⟩ := List.forall_mem_cons.mp h
    have hstep : cdfSum ≤ cdfSum + (b.2 : ℚ) / numBytes :=
      le_add_of_nonneg_right (div_nonneg (by exact_mod_cast hb) (Nat.cast_nonneg _))
    intro line hline
    rcases List.mem_cons.mp hline with rfl | hline
    · exact hstep
    · exact hstep.trans (ih hl line hline)

/-- The printed fractions do not decrease. -/
theorem cdfLines_rises (h : ∀ b ∈ l, 0 ≤ b.2) :
    ((cdfLines numBytes cdfSum l).map Prod.snd).Pairwise (· ≤ ·) := by
  induction l generalizing cdfSum with
  | nil => exact List.Pairwise.nil
  | cons b l ih =>
    obtain ⟨hb, hl⟩ := List.forall_mem_cons.mp h
    refine List.Pairwise.cons (fun x hx => ?_) (ih hl)
    obtain ⟨line, hline, rfl⟩ := List.mem_map.mp hx
    exact le_cdfLines hl line hline

/-- The last line has the fraction of all buckets. -/
theorem cdfLines_last (hne : l ≠ []) :
    ((cdfLines numBytes cdfSum l).map Prod.snd).getLast? =
      some (cdfSum + ((l.map Prod.snd).sum : ℤ) / numBytes) := by
  induction l generalizing cdfSum with
  | nil => exact absurd rfl hne
  | cons b l ih =>
    unfold cdfLines
    rw [List.map_cons, List.map_cons, List.sum_cons, List.getLast?_cons]
    dsimp only
    cases l with
    | nil =>
      show some (cdfSum + (b.2 : ℚ) / numBytes) = _
      simp
    | cons d l =>
      rw [ih (by simp), Option.getD_some]
      push_cast
      ring_nf

end Lines

/-! ## The stream without gaps -/

/-- The ranges hold the bytes below `L` and nothing else. -/
structure Filled (L : ℕ) (l : List Entry) : Prop where
  cover : ∀ x, Covered l x ↔ x < L
  ends : ∀ en ∈ l, en.2.endSeq ≤ L

/-- The bytes of ranges that hold everything from `a` up to `L`. -/
theorem sum_byteCount_of_cover {l : List Entry} {a L : ℕ} (hwf : WfEntries l) (hsep : Separated l)
    (hle : a ≤ L) (hcover : ∀ x, Covered l x ↔ a ≤ x ∧ x < L) :
    (l.map fun en => en.2.byteCount).sum = L - a := by
  induction l generalizing a with
  | nil =>
    have hnone := (hcover a).not.mp (covered_nil a)
    show 0 = L - a
    omega
  | cons en l ih =>
    obtain ⟨⟨-, hr⟩, hwf'⟩ := wfEntries_cons.mp hwf
    obtain ⟨hlater, hsep'⟩ := separated_cons.mp hsep
    have hcount := ByteRange.wf_iff.mp hr
    rw [List.map_cons, List.sum_cons]
    -- no byte of the head is in the tail
    have htail : ∀ x, Covered l x → en.2.endSeq ≤ x := by
      rintro x ⟨d, hd, hhold⟩
      exact (hlater d hd).trans hhold.1
    by_cases hbytes : en.2.startSeq < en.2.endSeq
    · -- the head holds `a` and the bytes behind it, up to where the tail goes on
      have hfirst : a ≤ en.2.startSeq ∧ en.2.startSeq < L :=
        (hcover _).mp ⟨en, List.mem_cons_self, le_rfl, hbytes⟩
      have hlast : a ≤ en.2.endSeq - 1 ∧ en.2.endSeq - 1 < L :=
        (hcover _).mp ⟨en, List.mem_cons_self, by omega, by omega⟩
      have hstart : en.2.startSeq = a := by
        rcases covered_cons.mp ((hcover a).mpr ⟨le_rfl, by omega⟩) with hhold | hcov
        · have := hhold.1
          omega
        · have := htail a hcov
          omega
      rw [ih hwf' hsep' (a := en.2.endSeq) (by omega) fun x => ?_]
      · omega
      · have hx := hcover x
        rw [covered_cons] at hx
        unfold ByteRange.Holds at hx
        have := htail x
        constructor
        · intro hcov
          exact ⟨this hcov, (hx.mp (.inr hcov)).2⟩
        · rintro ⟨hlo, hhi⟩
          refine (hx.mpr ⟨by omega, hhi⟩).resolve_left fun hhold => ?_
          omega
    · -- a head without bytes holds nothing
      rw [ih hwf' hsep' hle fun x => ?_]
      · omega
      · rw [← hcover x, covered_cons]
        refine ⟨.inr, fun h => h.resolve_left fun hhold => ?_⟩
        have := hhold.1.trans_lt hhold.2
        exact hbytes this

/-- The invariant: every byte that was sent lies in one range. -/
structure StreamKept (rm : RangeManager) : Prop where
  apart : rm.Apart
  filled : Filled rm.lastSeq rm.ranges.entries

/-- A packet without payload at `seq` cuts into no range. -/
def Clear (rm : RangeManager) (seq : ℕ) : Prop :=
  ∀ en ∈ rm.ranges.entries, en.1 < seq → en.2.endSeq ≤ seq

instance (rm : RangeManager) (seq : ℕ) : Decidable (Clear rm seq) :=
  inferInstanceAs (Decidable (∀ en ∈ _, _))

/-- The packet leaves no gap, and moves `lastSeq` by the bytes it adds. -/
def Extends (rm : RangeManager) (sd : SendData) : Prop :=
  if sd.data.payloadSize = 0 then
    if sd.data.rst then sd.data.seq ≤ rm.lastSeq ∧ rm.Clear sd.data.seq
    else sd.data.syn = false ∧ sd.data.seq = rm.lastSeq
  else sd.data.seq ≤ rm.lastSeq

instance (rm : RangeManager) (sd : SendData) : Decidable (Extends rm sd) := by
  unfold Extends
  infer_instance

/-- Any ACK will do. -/
def KeepsStream (rm : RangeManager) : SenderEvent → Prop
  | .sent sd => Extends rm sd
  | .ack _ => True

instance (rm : RangeManager) : (ev : SenderEvent) → Decidable (KeepsStream rm ev)
  | .sent sd => inferInstanceAs (Decidable (Extends rm sd))
  | .ack _ => inferInstanceAs (Decidable True)

section Sent

variable {rm rm' : RangeManager} {sd : SendData}

/-- Data that starts at or below `L` fills the map up to its end. -/
theorem passKeeps_filled {L e : ℕ} {seg : DataSeg} :
    PassKeeps L .sent seg e (fun l s _ => Filled L l ∧ s ≤ L) (Filled (max L e)) := by
  rintro s level pre old new post next hready ⟨hfill, hs⟩ hpass
  have hlt := hready.lt
  have hwf := (wfEntries_append.mp (wfEntries_append.mp hready.wf).1).2
  have hnew : new ≠ [] := by
    rintro rfl
    cases hpass with
    | missing hitype => cases hitype
  have hcover := @Pass.covered_iff _ _ _ _ _ _ _ _ _ _ _ hpass hwf hlt hnew
  have hkept : ∀ en ∈ pre ++ new ++ post, en ∈ new ∨ en.2.endSeq ≤ L := by
    intro en hen
    simp only [List.mem_append] at hen
    by_cases hin : en ∈ new
    · exact .inl hin
    · refine .inr (hfill.ends en ?_)
      simp only [List.mem_append]
      tauto
  constructor
  · -- the last pass: the data has reached `e`
    rintro rfl
    refine ⟨fun x => ?_, fun en hen => ?_⟩
    · rw [hcover, hfill.cover, Option.getD_none]
      omega
    · rcases hkept en hen with hin | hend
      · have hold : maxEnd old ≤ L := maxEnd_le fun d hd => hfill.ends d (by simp [hd])
        have hle := le_maxEnd hin
        have hmax := (hpass.maxEnd_bounds hlt).2
        omega
      · omega
  · -- another pass follows, at a range that was there before
    rintro s' rfl
    have hcont := hpass.continues hready.wf hready.sep rfl
    have hle : s' ≤ L := by
      rcases hcont.reached with ⟨en, hen, rfl⟩ | ⟨en, hen, rfl⟩
      · exact hfill.ends en (by simp [hen])
      · obtain ⟨hkey, hr⟩ := hready.wf en (by simp [hen])
        have hend := hfill.ends en (by simp [hen])
        have := hr.le
        omega
    refine ⟨⟨fun x => ?_, fun en hen => ?_⟩, hle⟩
    · rw [hcover, hfill.cover, Option.getD_some]
      omega
    · rcases hkept en hen with hin | hend
      · exact (hcont.new_le en hin).2.trans hle
      · exact hend

theorem StreamKept.ready (h : StreamKept rm) (hsd : Sized sd)
    (hsize : sd.data.payloadSize ≠ 0) :
    Ready rm.lastSeq .sent sd.data.endSeq rm.ranges.entries sd.data.seq := by
  refine h.apart.ready hsd hsize ?_
  rw [KeepsApart, if_neg hsize]
  constructor
  · intro en hen _ hin
    exact hin.trans_le (h.filled.ends en hen)
  · intro x hle _ _ hheld en hen
    -- a byte that no range holds lies behind all of them
    obtain ⟨hkey, hr⟩ := h.apart.1 en hen
    have hend := h.filled.ends en hen
    have := hr.le
    left
    by_contra hgt
    obtain ⟨d, hd, hhold⟩ := (h.filled.cover x).mpr (by omega)
    exact hheld ⟨d, hd, .inr hhold⟩

theorem insertSentRange_stream_data (hinv : StreamKept rm) (hsd : Sized sd)
    (hsize : sd.data.payloadSize ≠ 0) (hok : Extends rm sd)
    (h : rm.insertSentRange sd = .ok rm') : StreamKept rm' := by
  have hseq : sd.data.seq ≤ rm.lastSeq := by
    unfold Extends at hok
    rwa [if_neg hsize] at hok
  have hready := hinv.ready hsd hsize
  have hend := hsd.size
  obtain ⟨rm₁, ret, h₁, rfl⟩ := insertSentRange_cases h
  have hins := insertLoop_inserted (by simp) passKeeps_filled hready ⟨hinv.filled, hseq⟩ h₁
  have hlast : newLastSeq sd rm₁.lastSeq = max rm.lastSeq sd.data.endSeq := by
    rw [hins.frame.lastSeq]
    unfold newLastSeq
    rw [if_neg hsize]
    split_ifs <;> omega
  refine ⟨⟨hins.wf, hins.sep⟩, ?_⟩
  show Filled (newLastSeq sd rm₁.lastSeq) rm₁.ranges.entries
  rw [hlast]
  exact hins.post

/-- Where a packet without payload is registered. -/
theorem emptySeq_le_of_le {seg : DataSeg} {s L : ℕ} (hs : s ≤ L)
    (hwf : WfEntries rm.ranges.entries) (hends : ∀ en ∈ rm.ranges.entries, en.2.endSeq ≤ L) :
    rm.emptySeq seg s ≤ L := by
  rcases emptySeq_cases rm seg s with heq | ⟨en, hen, heq⟩
  · omega
  · obtain ⟨hkey, hr⟩ := hwf en hen
    have := hends en hen
    have := hr.le
    omega

theorem insertSentRange_stream_empty (hinv : StreamKept rm) (hsd : Sized sd)
    (hsize : sd.data.payloadSize = 0) (hok : Extends rm sd)
    (h : rm.insertSentRange sd = .ok rm') : StreamKept rm' := by
  unfold Extends at hok
  rw [if_pos hsize] at hok
  have hend : sd.data.endSeq = sd.data.seq := by simpa [hsize] using hsd.size
  obtain ⟨rm₁, h₁, hlast, hpass⟩ := insertSentRange_empty rm hend
  obtain rfl := Except.ok.inj (h₁.symm.trans h)
  obtain ⟨hle, hclear, hlast'⟩ : sd.data.seq ≤ rm.lastSeq ∧ rm.Clear sd.data.seq ∧
      rm₁.lastSeq = rm.lastSeq := by
    rw [hlast]
    unfold newLastSeq
    rw [if_pos hsize]
    by_cases hrst : sd.data.rst = true
    · rw [if_pos hrst] at hok ⊢
      exact ⟨hok.1, hok.2, rfl⟩
    · rw [if_neg hrst] at hok ⊢
      obtain ⟨hsyn, hseq⟩ := hok
      refine ⟨hseq.le, fun en hen _ => hseq ▸ hinv.filled.ends en hen, ?_⟩
      rw [hsyn, hend, hseq]
      rfl
  have hq : rm.emptySeq sd.data sd.data.seq ≤ rm.lastSeq :=
    emptySeq_le_of_le hle hinv.apart.1 hinv.filled.ends
  have hroom : (∃ en ∈ rm.ranges.entries, en.1 = rm.emptySeq sd.data sd.data.seq) ∨
      ∀ en ∈ rm.ranges.entries, en.1 < rm.emptySeq sd.data sd.data.seq →
        en.2.endSeq ≤ rm.emptySeq sd.data sd.data.seq := by
    rcases emptySeq_cases rm sd.data sd.data.seq with heq | hmem
    · rw [heq]
      exact .inr hclear
    · exact .inl hmem
  refine ⟨⟨hpass.wf hinv.apart.1, hpass.separated hinv.apart.1 hinv.apart.2 hroom⟩, ?_⟩
  rw [hlast']
  refine ⟨fun x => (hpass.covered_iff).trans (hinv.filled.cover x), fun en hen => ?_⟩
  have hmax := hpass.maxEnd_eq hinv.apart.1
  have hold : maxEnd rm.ranges.entries ≤ rm.lastSeq := maxEnd_le hinv.filled.ends
  have := le_maxEnd hen
  omega

theorem ackStep_stream {seg : DataSeg} (hinv : StreamKept rm) (h : ackStep rm seg = .ok rm') :
    StreamKept rm' := by
  obtain ⟨ret, hprocess⟩ := exists_of_ackStep h
  obtain ⟨_, _, _, hp⟩ := processAck_processed hinv.apart.1 hinv.apart.2 hprocess
  obtain ⟨hapart, hrefined⟩ := processAck_refined hinv.apart hprocess
  refine ⟨hapart, ?_⟩
  rw [hp.lastSeq]
  refine ⟨fun x => (hrefined.covered x).trans (hinv.filled.cover x), fun en hen => ?_⟩
  obtain ⟨o, ho, hpart⟩ := hrefined.part en hen
  exact hpart.le_end.trans (hinv.filled.ends o ho)

theorem senderStep_stream {ev : SenderEvent} (hinv : StreamKept rm) (hsized : ev.Sized)
    (hok : KeepsStream rm ev) (h : senderStep rm ev = .ok rm') : StreamKept rm' := by
  cases ev with
  | ack seg => exact ackStep_stream hinv h
  | sent sd =>
    by_cases hsize : sd.data.payloadSize = 0
    · exact insertSentRange_stream_empty hinv hsized hsize hok h
    · exact insertSentRange_stream_data hinv hsized hsize hok h

theorem streamKept_new (firstSeq : ℕ) : StreamKept (new firstSeq) :=
  ⟨⟨wfEntries_nil, separated_nil⟩,
    ⟨fun x => iff_of_false (covered_nil x) (Nat.not_lt_zero x), fun en hen => (by cases hen)⟩⟩

theorem senderStep_run_stream {firstSeq : ℕ} {evs : List SenderEvent}
    (hsized : ∀ ev ∈ evs, ev.Sized)
    (hsteps : Run.Steps senderStep KeepsStream (new firstSeq) evs)
    (hrun : Run.run senderStep (new firstSeq) evs = .ok rm) : StreamKept rm :=
  Run.invariant (I := fun rm _ => StreamKept rm) (d := [])
    (fun _ _ _ _ hinv hok hstep => senderStep_stream hinv hok.2 hok.1 hstep)
    (streamKept_new firstSeq) (hsteps.and_forall hsized) hrun

end Sent

/-! ## The receiver trace -/

/-- The ranges hold the bytes below `lastSeq`; where a range without bytes lies does not matter any
more. -/
structure StreamHeld (rm : RangeManager) : Prop where
  apart : rm.Apart
  cover : ∀ x, Covered rm.ranges.entries x ↔ x < rm.lastSeq

/-- A received packet without payload cuts into no range. -/
def ReceivesClear (rm : RangeManager) (sd : SendData) : Prop :=
  sd.data.payloadSize = 0 → rm.Clear sd.data.seq

instance (rm : RangeManager) (sd : SendData) : Decidable (ReceivesClear rm sd) :=
  inferInstanceAs (Decidable (_ → _))

section Recv

variable {rm rm' : RangeManager} {sd : SendData}

/-- An entry after a packet without payload: one that was there, or the new range. -/
theorem insertByteRange_empty_origin {itype : InsertType} {seg : DataSeg} {ret : Bool}
    (h : rm.insertByteRange seg.seq seg.seq itype seg 0 = .ok (rm', ret)) {en : Entry}
    (hen : en ∈ rm'.ranges.entries) :
    (∃ o ∈ rm.ranges.entries, o.1 = en.1 ∧ o.2.startSeq = en.2.startSeq ∧
      o.2.endSeq = en.2.endSeq ∧ o.2.byteCount = en.2.byteCount) ∨
    ((∀ o ∈ rm.ranges.entries, o.1 ≠ en.1) ∧ en.1 = seg.seq ∧ en.2.startSeq = seg.seq ∧
      en.2.endSeq = seg.seq ∧ en.2.byteCount = 0) := by
  obtain ⟨-, hmem⟩ := insertByteRange_empty_mem h
  rcases hmem en hen with hen | ⟨hnone, rfl⟩ | ⟨r, hr, rfl⟩
  · exact .inl ⟨en, hen, rfl, rfl, rfl, rfl⟩
  · have hfree := OrdMap.find?_eq_none_iff.mp hnone
    have hq : rm.emptySeq seg seg.seq = seg.seq := by
      rcases emptySeq_cases rm seg seg.seq with hq | ⟨o, ho, hkey⟩
      · exact hq
      · exact absurd hkey (hfree o ho)
    exact .inr ⟨hfree, hq, hq, hq, rfl⟩
  · exact .inl ⟨_, hr, rfl, (recordEmpty_startSeq ..).symm, (recordEmpty_endSeq ..).symm,
      (recordEmpty_byteCount ..).symm⟩

theorem insertReceivedRange_stream_empty (hinv : StreamHeld rm)
    (hend : sd.data.endSeq = sd.data.seq) (hclear : rm.Clear sd.data.seq)
    (h : rm.insertReceivedRange sd = .ok rm') : StreamHeld rm' := by
  obtain ⟨⟨rm₁, ret⟩, hins, hrm⟩ := Run.exists_of_bind_ok h
  obtain rfl : rm₁ = rm' := Except.ok.inj hrm
  have hkeys : OrdMap.KeysKept rm.ranges rm₁.ranges :=
    insertByteRange_keysKept hinv.apart.1 hend.ge (fun h => by cases h) (by simp) hins
  have hseg : (receivedSeg sd).endSeq = (receivedSeg sd).seq := hend
  rw [hseg] at hins
  have horigin : ∀ {en}, en ∈ rm₁.ranges.entries → _ := insertByteRange_empty_origin hins
  have hlast := (insertByteRange_empty_mem hins).1
  have hwf : WfEntries rm₁.ranges.entries := by
    intro en hen
    rcases horigin hen with ⟨o, ho, hkey, hstart, hstop, hcount⟩ | ⟨-, hkey, hstart, hstop, hcount⟩
    · obtain ⟨hkey', hr⟩ := hinv.apart.1 o ho
      exact ⟨by omega, hr.congr hstart.symm hstop.symm hcount.symm⟩
    · refine ⟨hkey.trans hstart.symm, ByteRange.wf_iff.mpr ?_⟩
      omega
  have hsep : Separated rm₁.ranges.entries := by
    refine rm₁.ranges.sorted.imp_of_mem fun {a b} ha hb hlt => ?_
    rcases horigin ha with ⟨o, ho, hkey, -, hstop, -⟩ | ⟨-, hkey, -, hstop, -⟩
    · rcases horigin hb with ⟨p, hp, hkey', hstart', -, -⟩ | ⟨-, hkey', hstart', -, -⟩
      · have := hinv.apart.le_of_lt ho hp (by omega)
        omega
      · have := hclear o ho (show o.1 < (receivedSeg sd).seq by omega)
        have hseq : (receivedSeg sd).seq = sd.data.seq := rfl
        omega
    · have := (hwf b hb).1
      omega
  refine ⟨⟨hwf, hsep⟩, fun x => ?_⟩
  rw [hlast, ← hinv.cover x]
  constructor
  · rintro ⟨en, hen, hhold⟩
    unfold ByteRange.Holds at hhold
    rcases horigin hen with ⟨o, ho, -, hstart, hstop, -⟩ | ⟨-, -, hstart, hstop, -⟩
    · exact ⟨o, ho, by omega, by omega⟩
    · omega
  · rintro ⟨o, ho, hhold⟩
    obtain ⟨d, hd, hkey⟩ := hkeys o ho
    rcases horigin hd with ⟨p, hp, hkey', hstart, hstop, -⟩ | ⟨hfree, -⟩
    · obtain ⟨key, r⟩ := p
      obtain ⟨key', r'⟩ := o
      obtain rfl : key = key' := hkey'.trans hkey
      obtain rfl := OrdMap.eq_of_mem ho hp
      unfold ByteRange.Holds at hhold
      exact ⟨d, hd, by dsimp only at *; omega, by dsimp only at *; omega⟩
    · exact absurd hkey.symm (hfree o ho)

theorem insertReceivedRange_stream_data (hinv : StreamHeld rm)
    (hlt : sd.data.seq < sd.data.endSeq) (h : rm.insertReceivedRange sd = .ok rm') :
    StreamHeld rm' := by
  obtain ⟨⟨rm₁, ret⟩, hins, hrm⟩ := Run.exists_of_bind_ok h
  obtain rfl : rm₁ = rm' := Except.ok.inj hrm
  have hlt' : (receivedSeg sd).seq < (receivedSeg sd).endSeq := hlt
  have hframe := insertLoop_onlyRanges (by simp) hinv.apart.1 hlt' (fun h => by cases h) hins
  obtain ⟨hapart, hrefined⟩ :=
    insertLoop_recv (recvKeeps_refined _ _ _ _) hinv.apart hlt' (.refl _) hins
  refine ⟨hapart, fun x => ?_⟩
  rw [hframe.lastSeq]
  exact (hrefined.covered x).trans (hinv.cover x)

theorem insertReceivedRange_stream (hinv : StreamHeld rm) (hsd : Sized sd)
    (hok : ReceivesClear rm sd) (h : rm.insertReceivedRange sd = .ok rm') : StreamHeld rm' := by
  have hend := hsd.size
  by_cases hsize : sd.data.payloadSize = 0
  · exact insertReceivedRange_stream_empty hinv (by omega) (hok hsize) h
  · exact insertReceivedRange_stream_data hinv (by omega) h

theorem insertReceivedRange_run_stream {sds : List SendData} (hinv : StreamHeld rm)
    (hsized : ∀ sd ∈ sds, Sized sd) (hsteps : Run.Steps insertReceivedRange ReceivesClear rm sds)
    (hrun : Run.run insertReceivedRange rm sds = .ok rm') : StreamHeld rm' :=
  Run.invariant (I := fun rm _ => StreamHeld rm) (d := [])
    (fun _ _ _ _ hinv hok hstep => insertReceivedRange_stream hinv hok.2 hok.1 hstep) hinv
    (hsteps.and_forall hsized) hrun

end Recv

/-! ## The fractions of a whole trace -/

section Whole

variable {transport : Bool} {last : Option Timeval} {l : List Entry} {ranges : List DiffRange}

theorem registerRecvDiffs_byteCount (h : registerRecvDiffs transport last l = .ok ranges) :
    ranges.map (fun d => d.range.byteCount) = l.map fun en => en.2.byteCount := by
  induction l generalizing last ranges with
  | nil =>
    obtain rfl := Except.ok.inj h
    rfl
  | cons en l ih =>
    obtain ⟨key, r⟩ := en
    unfold registerRecvDiffs at h
    split_ifs at h
    · obtain ⟨diff, -, h⟩ := Run.exists_of_bind_ok h
      obtain ⟨rest, hrest, h⟩ := Run.exists_of_bind_ok h
      obtain rfl := Except.ok.inj h
      have hmatch : r.matchReceivedType.1.byteCount = r.byteCount :=
        matchReceivedType_blind (f := ByteRange.byteCount) (fun _ _ _ _ => rfl) r
      rw [List.map_cons, List.map_cons, ih hrest, hmatch]
    · obtain ⟨rest, hrest, h⟩ := Run.exists_of_bind_ok h
      obtain rfl := Except.ok.inj h
      rw [List.map_cons, List.map_cons, ih hrest]

theorem doDriftCompensation_range {drift : ℚ} {first : ByteRange} {lowest : ℤ}
    {out : List DiffRange × ℤ} (h : doDriftCompensation drift first lowest ranges = .ok out) :
    out.1.map DiffRange.range = ranges.map DiffRange.range := by
  induction ranges generalizing lowest out with
  | nil =>
    obtain rfl := Except.ok.inj h
    rfl
  | cons d ranges ih =>
    unfold doDriftCompensation at h
    split_ifs at h
    · obtain ⟨diff, -, h⟩ := Run.exists_of_bind_ok h
      obtain ⟨rest, hrest, h⟩ := Run.exists_of_bind_ok h
      obtain rfl := Except.ok.inj h
      rw [List.map_cons, List.map_cons, ih hrest]
    · obtain ⟨rest, hrest, h⟩ := Run.exists_of_bind_ok h
      obtain rfl := Except.ok.inj h
      rw [List.map_cons, List.map_cons, ih hrest]

/-- The compensation leaves the ranges as they are. -/
theorem calculateLatencyVariation_byteCount {v : LatencyVariation}
    (h : calculateLatencyVariation transport 0 l.length l = .ok v) :
    v.ranges.map (fun d => d.range.byteCount) = l.map fun en => en.2.byteCount := by
  obtain ⟨ranges, hranges, h⟩ := Run.exists_of_bind_ok h
  obtain ⟨drift, -, h⟩ := Run.exists_of_bind_ok h
  have hcounts := registerRecvDiffs_byteCount hranges
  have hlength : ranges.length = l.length := by
    have := congrArg List.length hcounts
    simpa using this
  cases ranges with
  | nil =>
    obtain rfl := Except.ok.inj h
    exact hcounts
  | cons first rest =>
    obtain ⟨out, hout, h⟩ := Run.exists_of_bind_ok h
    obtain rfl := Except.ok.inj h
    have hrange := doDriftCompensation_range hout
    rw [List.drop_zero, ← hlength, List.take_length] at hrange
    dsimp only
    rw [List.take_zero, List.nil_append, List.drop_zero, ← hlength, List.drop_length,
      List.append_nil, ← hcounts]
    have hcount := congrArg (List.map ByteRange.byteCount) hrange
    rw [List.map_map, List.map_map] at hcount
    exact hcount

end Whole

/-- The bytes in the buckets are the bytes of the divisor, and the fractions rise to 1. -/
structure ReachesOne (rm : RangeManager) (drift : ℚ) (t : CdfTables) : Prop where
  sum : bucketBytes t.byteLatencyVariationCDFValues = rm.getNumBytes
  rises : ((rm.writeByteLatencyVariationCDF drift t).2.map Prod.snd).Pairwise (· ≤ ·)
  ends : ((rm.writeByteLatencyVariationCDF drift t).2.map Prod.snd).getLast? = some 1

/-- Ten bytes at `seq`, sent at second `t`. -/
def tenBytesAt (t : ℤ) (seq : ℕ) : SendData :=
  { data :=
      { seq := seq, endSeq := seq + 10, payloadSize := 10, tstampPcap := ⟨t, 0⟩, tstampTcp := 7 } }

/-- Two segments, and an ACK for one and a half of them. -/
def halfAcked : List SenderEvent :=
  [.sent (tenBytesAt 1 0), .sent (tenBytesAt 2 10),
    .ack { ack := 15, tstampPcap := ⟨3, 0⟩ }]

/-- What the two traces leave, and the call on it. -/
def variationAfter (evs : List SenderEvent) (sds : List SendData) :
    Except Abort (RangeManager × RangeManager × LatencyVariation) := do
  let rm₁ ← Run.run senderStep (new 0) evs
  let rm ← Run.run insertReceivedRange rm₁ sds
  let v ← calculateLatencyVariation true 0 rm.ranges.entries.length rm.ranges.entries
  return (rm₁, rm, v)

theorem exists_of_variationAfter {evs : List SenderEvent} {sds : List SendData}
    {p : RangeManager × RangeManager × LatencyVariation → Bool}
    (h : (variationAfter evs sds).toOption.any p = true) :
    ∃ rm₁ rm v, Run.run senderStep (new 0) evs = .ok rm₁ ∧
      Run.run insertReceivedRange rm₁ sds = .ok rm ∧
      calculateLatencyVariation true 0 rm.ranges.entries.length rm.ranges.entries = .ok v ∧
      p (rm₁, rm, v) = true := by
  obtain ⟨out, hout, hp⟩ := Run.exists_of_any_toOption h
  obtain ⟨rm₁, hsent, hout⟩ := Run.exists_of_bind_ok hout
  obtain ⟨rm, hrecv, hout⟩ := Run.exists_of_bind_ok hout
  obtain ⟨v, hcall, hout⟩ := Run.exists_of_bind_ok hout
  obtain rfl := Except.ok.inj hout
  exact ⟨rm₁, rm, v, hsent, hrecv, hcall, hp⟩

/-- A SYN and ten bytes. -/
def synAndTen : List SenderEvent :=
  [.sent { data := { flags := thSyn, tstampPcap := ⟨1, 0⟩ } }, .sent (tenBytesAt 1 1)]

end RangeManager

end AnalyseTCP
