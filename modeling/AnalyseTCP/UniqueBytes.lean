import AnalyseTCP.AnalyseInterval
import AnalyseTCP.Disjointness

/-!
# `Connection::getNumUniqueBytes`

One loop looks for the first analysed range with bytes from the front, the other for the last one
from the back.  The second loop stops before it has looked at `analyse_range_start`, so when only
that range has bytes the end stays 0 and the unsigned difference wraps.
-/

namespace AnalyseTCP

namespace RangeManager

/-- The first loop, over the entries from the position `it` on. -/
def firstDataSeq (itEnd : ℕ) : ℕ → List Entry → Except Abort ℕ
  | it, l =>
    if it = itEnd then .ok 0
    else
      match l with
      | [] => .error .outOfRange
      | e :: l => if e.2.byteCount ≠ 0 then .ok e.2.startSeq else firstDataSeq itEnd (it + 1) l

/-- The second loop, over the entries from the position `it` back to the first one.  It does not
look at the range at `itEnd`. -/
def lastDataSeq (itEnd : ℕ) : ℕ → List Entry → Except Abort ℕ
  | it, l =>
    if it = itEnd then .ok 0
    else
      match l with
      | [] => .error .outOfRange
      | e :: l => if e.2.byteCount ≠ 0 then .ok e.2.endSeq else lastDataSeq itEnd (it - 1) l

def getNumUniqueBytes (rm : RangeManager) (iv : AnalyseRange) : Except Abort ℕ := do
  let firstSeq ← firstDataSeq iv.analyseRangeEnd iv.analyseRangeStart
    (rm.ranges.entries.drop iv.analyseRangeStart)
  let lastSeq ← lastDataSeq iv.analyseRangeStart iv.analyseRangeLast
    (rm.ranges.entries.take (iv.analyseRangeLast + 1)).reverse
  return sub64 lastSeq firstSeq

def dataRanges (l : List Entry) : List Entry := l.filter fun e => e.2.byteCount ≠ 0

/-- From the first analysed range with bytes to the last one. -/
def SpansData (rm : RangeManager) (iv : AnalyseRange) : Prop :=
  ∃ l n, rm.analysedRanges iv = .ok l ∧ rm.getNumUniqueBytes iv = .ok n ∧
    (∃ first ∈ (dataRanges l).head?, ∃ last ∈ (dataRanges l).getLast?,
      n = last.2.endSeq - first.2.startSeq) ∧
    (l.map fun e => e.2.byteCount).sum ≤ n

section Loops

variable {rm : RangeManager} {l : List Entry}

theorem dataRanges_cons_of_bytes {e : Entry} (h : e.2.byteCount ≠ 0) :
    dataRanges (e :: l) = e :: dataRanges l := by
  unfold dataRanges
  rw [List.filter_cons, if_pos (decide_eq_true h)]

theorem dataRanges_cons_of_empty {e : Entry} (h : e.2.byteCount = 0) :
    dataRanges (e :: l) = dataRanges l := by
  unfold dataRanges
  rw [List.filter_cons, if_neg (by simp [h])]

theorem dataRanges_reverse (l : List Entry) : dataRanges l.reverse = (dataRanges l).reverse :=
  List.filter_reverse ..

theorem dataRanges_eq_nil_iff : dataRanges l = [] ↔ ∀ e ∈ l, e.2.byteCount = 0 := by
  unfold dataRanges
  rw [List.filter_eq_nil_iff]
  simp

theorem firstDataSeq_eq {itEnd it : ℕ} (hle : it ≤ itEnd) (hin : itEnd ≤ it + l.length) :
    firstDataSeq itEnd it l =
      .ok (((dataRanges (l.take (itEnd - it))).head?.map fun e => e.2.startSeq).getD 0) := by
  induction l generalizing it with
  | nil =>
    have hend : it = itEnd := by simpa using le_antisymm hle hin
    unfold firstDataSeq
    rw [if_pos hend, List.take_nil]
    rfl
  | cons e l ih =>
    unfold firstDataSeq
    by_cases hend : it = itEnd
    · rw [if_pos hend, hend, Nat.sub_self, List.take_zero]
      rfl
    rw [List.length_cons] at hin
    rw [if_neg hend, show itEnd - it = itEnd - (it + 1) + 1 by omega, List.take_succ_cons]
    dsimp only
    by_cases hbytes : e.2.byteCount = 0
    · rw [if_neg (not_not.mpr hbytes), ih (by omega) (by omega), dataRanges_cons_of_empty hbytes]
    · rw [if_pos hbytes, dataRanges_cons_of_bytes hbytes]
      rfl

theorem lastDataSeq_eq {itEnd it : ℕ} (hle : itEnd ≤ it) (hin : it ≤ itEnd + l.length) :
    lastDataSeq itEnd it l =
      .ok (((dataRanges (l.take (it - itEnd))).head?.map fun e => e.2.endSeq).getD 0) := by
  induction l generalizing it with
  | nil =>
    have hend : it = itEnd := by simpa using le_antisymm hin hle
    unfold lastDataSeq
    rw [if_pos hend, List.take_nil]
    rfl
  | cons e l ih =>
    unfold lastDataSeq
    by_cases hend : it = itEnd
    · rw [if_pos hend, hend, Nat.sub_self, List.take_zero]
      rfl
    rw [List.length_cons] at hin
    rw [if_neg hend, show it - itEnd = it - 1 - itEnd + 1 by omega, List.take_succ_cons]
    dsimp only
    by_cases hbytes : e.2.byteCount = 0
    · rw [if_neg (not_not.mpr hbytes), ih (by omega) (by omega), dataRanges_cons_of_empty hbytes]
    · rw [if_pos hbytes, dataRanges_cons_of_bytes hbytes]
      rfl

end Loops

/-! ## The bytes between the first range and the last -/

section Bytes

variable {rm : RangeManager} {l : List Entry} {iv : AnalyseRange}

theorem sum_dataRanges (l : List Entry) :
    ((dataRanges l).map fun e => e.2.byteCount).sum = (l.map fun e => e.2.byteCount).sum := by
  induction l with
  | nil => rfl
  | cons e l ih =>
    by_cases hbytes : e.2.byteCount = 0
    · rw [dataRanges_cons_of_empty hbytes, ih, List.map_cons, List.sum_cons, hbytes, Nat.zero_add]
    · rw [dataRanges_cons_of_bytes hbytes, List.map_cons, List.map_cons, List.sum_cons,
        List.sum_cons, ih]

/-- Ranges that are well formed and apart hold no more bytes than there are between the start of the
first and the end of the last. -/
theorem startSeq_add_sum_le {first last : Entry} (hwf : WfEntries l) (hsep : Separated l)
    (hfirst : first ∈ l.head?) (hlast : last ∈ l.getLast?) :
    first.2.startSeq + (l.map fun e => e.2.byteCount).sum ≤ last.2.endSeq := by
  induction l generalizing first with
  | nil => cases hfirst
  | cons e l ih =>
    obtain rfl := Option.some.inj hfirst
    have hsize := (hwf e List.mem_cons_self).2.size
    rw [List.map_cons, List.sum_cons]
    cases l with
    | nil =>
      obtain rfl : e = last := Option.some.inj hlast
      rw [List.map_nil, List.sum_nil]
      omega
    | cons f l =>
      have hnext : e.2.endSeq ≤ f.2.startSeq :=
        List.rel_of_pairwise_cons hsep List.mem_cons_self
      rw [Option.mem_def, List.getLast?_cons_cons] at hlast
      have hrest := ih (fun d hd => hwf d (List.mem_cons_of_mem e hd)) (List.Pairwise.of_cons hsep)
        rfl hlast
      omega

/-- The analysed ranges after the first one. -/
def laterRanges (rm : RangeManager) (iv : AnalyseRange) : List Entry :=
  (rm.ranges.entries.drop (iv.analyseRangeStart + 1)).take
    (iv.analyseRangeLast - iv.analyseRangeStart)

/-- The second loop finds the last range with bytes behind the position where it stops. -/
theorem lastDataSeq_later (hle : iv.analyseRangeStart ≤ iv.analyseRangeLast)
    (hlt : iv.analyseRangeLast < rm.ranges.entries.length) :
    lastDataSeq iv.analyseRangeStart iv.analyseRangeLast
        (rm.ranges.entries.take (iv.analyseRangeLast + 1)).reverse =
      .ok (((dataRanges (rm.laterRanges iv)).getLast?.map fun e => e.2.endSeq).getD 0) := by
  have hlater : ((rm.ranges.entries.take (iv.analyseRangeLast + 1)).reverse).take
      (iv.analyseRangeLast - iv.analyseRangeStart) = (rm.laterRanges iv).reverse := by
    rw [List.take_reverse, List.length_take, min_eq_left (by omega), List.drop_take,
      show iv.analyseRangeLast + 1 - (iv.analyseRangeLast - iv.analyseRangeStart) =
        iv.analyseRangeStart + 1 by omega,
      show iv.analyseRangeLast + 1 - (iv.analyseRangeStart + 1) =
        iv.analyseRangeLast - iv.analyseRangeStart by omega]
    rfl
  rw [lastDataSeq_eq hle (by rw [List.length_reverse, List.length_take]; omega), hlater,
    dataRanges_reverse, List.head?_reverse]

theorem getNumUniqueBytes_eq (hle : iv.analyseRangeStart ≤ iv.analyseRangeLast)
    (hlt : iv.analyseRangeLast < rm.ranges.entries.length)
    (hend : iv.analyseRangeEnd = iv.analyseRangeLast + 1) {start : Entry}
    (hstart : rm.ranges.entries[iv.analyseRangeStart]? = some start) :
    rm.analysedRanges iv = .ok (start :: rm.laterRanges iv) ∧
      rm.getNumUniqueBytes iv = .ok (sub64
        (((dataRanges (rm.laterRanges iv)).getLast?.map fun e => e.2.endSeq).getD 0)
        (((dataRanges (start :: rm.laterRanges iv)).head?.map fun e => e.2.startSeq).getD 0)) := by
  obtain ⟨hin, rfl⟩ := List.getElem?_eq_some_iff.mp hstart
  have hcons : (rm.ranges.entries.drop iv.analyseRangeStart).take
      (iv.analyseRangeLast + 1 - iv.analyseRangeStart) =
        rm.ranges.entries[iv.analyseRangeStart] :: rm.laterRanges iv := by
    rw [List.drop_eq_getElem_cons hin,
      show iv.analyseRangeLast + 1 - iv.analyseRangeStart =
        iv.analyseRangeLast - iv.analyseRangeStart + 1 by omega, List.take_succ_cons]
    rfl
  have hroom : iv.analyseRangeEnd ≤
      iv.analyseRangeStart + (rm.ranges.entries.drop iv.analyseRangeStart).length := by
    rw [List.length_drop]
    omega
  constructor
  · unfold analysedRanges
    rw [visitTo_eq (by omega) hroom, hend, hcons]
  · unfold getNumUniqueBytes
    rw [firstDataSeq_eq (by omega) hroom, Run.ok_bind, lastDataSeq_later hle hlt, Run.ok_bind, hend,
      hcons]
    rfl

/-- A range behind the first analysed one has bytes. -/
def LaterData (rm : RangeManager) (iv : AnalyseRange) : Prop :=
  ∃ it < rm.ranges.entries.length, iv.analyseRangeStart < it ∧ it ≤ iv.analyseRangeLast ∧
    ∃ e ∈ rm.ranges.entries[it]?, e.2.byteCount ≠ 0

instance (rm : RangeManager) (iv : AnalyseRange) : Decidable (rm.LaterData iv) :=
  inferInstanceAs (Decidable (∃ it < _, _))

theorem laterData_iff (hlt : iv.analyseRangeLast < rm.ranges.entries.length) :
    rm.LaterData iv ↔ dataRanges (rm.laterRanges iv) ≠ [] := by
  rw [Ne, dataRanges_eq_nil_iff]
  unfold LaterData laterRanges
  push Not
  constructor
  · rintro ⟨it, -, hgt, hle, e, he, hbytes⟩
    refine ⟨e, List.mem_of_getElem? (i := it - (iv.analyseRangeStart + 1)) ?_, hbytes⟩
    rw [List.getElem?_take_of_lt (by omega), List.getElem?_drop, ← he]
    congr 1
    omega
  · rintro ⟨e, he, hbytes⟩
    obtain ⟨i, hi, rfl⟩ := List.mem_take_iff_getElem.mp he
    rw [List.length_drop] at hi
    rw [List.getElem_drop] at hbytes
    refine ⟨iv.analyseRangeStart + 1 + i, by omega, by omega, by omega, _, ?_, hbytes⟩
    exact List.getElem?_eq_getElem (by omega)

/-- When only the first analysed range has bytes, the difference starts from 0. -/
theorem not_spans_of_later_nil {start : Entry} {n : ℕ} (hwf : start.2.Wf)
    (hmax : start.2.endSeq < 2 ^ 64) (hnil : dataRanges l = [])
    (hn : n = sub64 (((dataRanges l).getLast?.map fun e => e.2.endSeq).getD 0)
      (((dataRanges (start :: l)).head?.map fun e => e.2.startSeq).getD 0))
    {first last : Entry} (hfirst : first ∈ (dataRanges (start :: l)).head?)
    (hlast : last ∈ (dataRanges (start :: l)).getLast?) :
    n ≠ last.2.endSeq - first.2.startSeq := by
  by_cases hzero : start.2.byteCount = 0
  · rw [dataRanges_cons_of_empty hzero, hnil] at hfirst
    cases hfirst
  rw [dataRanges_cons_of_bytes hzero, hnil] at hfirst hlast hn
  obtain rfl : start = first := Option.some.inj hfirst
  obtain rfl : start = last := Option.some.inj hlast
  have hsize := hwf.size
  -- the second loop has found no end, and the subtraction wraps below 0
  rw [hn]
  show sub64 0 start.2.startSeq ≠ start.2.endSeq - start.2.startSeq
  unfold sub64
  omega

theorem spans_of_later {start last : Entry} (hwf : WfEntries (start :: l))
    (hsep : Separated (start :: l)) (hmax : ∀ e ∈ l, e.2.endSeq < 2 ^ 64)
    (hlast : last ∈ (dataRanges l).getLast?) :
    last ∈ (dataRanges (start :: l)).getLast? ∧ ∃ first ∈ (dataRanges (start :: l)).head?,
      sub64 last.2.endSeq first.2.startSeq = last.2.endSeq - first.2.startSeq ∧
      ((start :: l).map fun e => e.2.byteCount).sum ≤ last.2.endSeq - first.2.startSeq := by
  have hsub : (dataRanges (start :: l)).Sublist (start :: l) := List.filter_sublist
  have hlast' : last ∈ (dataRanges (start :: l)).getLast? := by
    by_cases hzero : start.2.byteCount = 0
    · rw [dataRanges_cons_of_empty hzero]
      exact hlast
    · rw [dataRanges_cons_of_bytes hzero, List.getLast?_cons, hlast]
      rfl
  obtain ⟨first, hfirst⟩ : ∃ first, first ∈ (dataRanges (start :: l)).head? := by
    cases hl : dataRanges (start :: l) with
    | nil =>
      rw [hl] at hlast'
      cases hlast'
    | cons e l => exact ⟨e, rfl⟩
  -- the difference does not wrap, since the bytes lie between the two ends
  have hspan := startSeq_add_sum_le (fun e he => hwf e (hsub.subset he))
    (List.Pairwise.sublist hsub hsep) hfirst hlast'
  rw [sum_dataRanges] at hspan
  have hlt := hmax last (List.mem_filter.mp (List.mem_of_getLast? hlast)).1
  refine ⟨hlast', first, hfirst, sub64_eq_sub (by omega) (by omega), by omega⟩

/-- The number is right exactly when a range behind the first analysed one has bytes. -/
theorem getNumUniqueBytes_spans_iff (hmap : rm.Apart)
    (hmax : ∀ e ∈ rm.ranges.entries, e.2.endSeq < 2 ^ 64)
    (hle : iv.analyseRangeStart ≤ iv.analyseRangeLast)
    (hlt : iv.analyseRangeLast < rm.ranges.entries.length)
    (hend : iv.analyseRangeEnd = iv.analyseRangeLast + 1) :
    rm.SpansData iv ↔ rm.LaterData iv := by
  have hin : iv.analyseRangeStart < rm.ranges.entries.length := by omega
  have hstart := List.getElem?_eq_getElem hin
  obtain ⟨hranges, hnum⟩ := getNumUniqueBytes_eq hle hlt hend hstart
  set start := rm.ranges.entries[iv.analyseRangeStart] with hstartDef
  have hsub : (start :: rm.laterRanges iv).Sublist rm.ranges.entries := by
    have hcut := List.drop_eq_getElem_cons hin
    refine List.Sublist.trans ?_ (List.drop_sublist iv.analyseRangeStart _)
    rw [hcut]
    exact List.Sublist.cons_cons start (List.take_sublist _ _)
  have hwf : WfEntries (start :: rm.laterRanges iv) := fun e he => hmap.1 e (hsub.subset he)
  have hmax' : ∀ e ∈ start :: rm.laterRanges iv, e.2.endSeq < 2 ^ 64 :=
    fun e he => hmax e (hsub.subset he)
  obtain ⟨hmaxStart, hmaxLater⟩ := List.forall_mem_cons.mp hmax'
  rw [laterData_iff hlt]
  constructor
  · rintro ⟨l, n, hl, hn, ⟨first, hfirst, last, hlast, heq⟩, -⟩ hnil
    rw [hranges] at hl
    obtain rfl := Except.ok.inj hl
    rw [hnum] at hn
    exact not_spans_of_later_nil (hwf start List.mem_cons_self).2 hmaxStart hnil
      (Except.ok.inj hn).symm hfirst hlast heq
  · intro hne
    have hlast := List.getLast?_eq_some_getLast hne
    obtain ⟨hlast', first, hfirst, hsub64, hsum⟩ :=
      spans_of_later hwf (List.Pairwise.sublist hsub hmap.2) hmaxLater hlast
    rw [hlast, Option.map_some, Option.getD_some, hfirst, Option.map_some, Option.getD_some,
      hsub64] at hnum
    exact ⟨_, _, hranges, hnum, ⟨first, hfirst, _, hlast', rfl⟩, hsum⟩

end Bytes

/-- The interval of the last two of four packets, found by `--analyse-start=5`. -/
theorem getNumUniqueBytes_spans_iff_two :
    ∃ rm, Run.run insertSentRange (new 0) (tensAt [0, 3, 6, 9]) = .ok rm ∧
      ∃ iv, rm.setAnalyseRangeInterval ⟨5, 0, 0, .inr rfl⟩ = .ok iv ∧
        (rm.SpansData iv ↔ rm.LaterData iv) ∧ rm.LaterData iv := by
  have hrun : ∃ rm, Run.run insertSentRange (new 0) (tensAt [0, 3, 6, 9]) = .ok rm ∧
      (rm.setAnalyseRangeInterval ⟨5, 0, 0, .inr rfl⟩).toOption.any (fun iv : AnalyseRange =>
        decide (rm.Apart ∧ (∀ e ∈ rm.ranges.entries, e.2.endSeq < 2 ^ 64) ∧
          iv.analyseRangeStart ≤ iv.analyseRangeLast ∧
          iv.analyseRangeLast < rm.ranges.entries.length ∧
          iv.analyseRangeEnd = iv.analyseRangeLast + 1 ∧ rm.LaterData iv)) = true :=
    Run.exists_of_any_toOption (by decide +kernel)
  obtain ⟨rm, hrm, hset⟩ := hrun
  obtain ⟨iv, hiv, hok⟩ := Run.exists_of_any_toOption hset
  obtain ⟨hmap, hmax, hle, hlt, hend, hlater⟩ := of_decide_eq_true hok
  exact ⟨rm, hrm, iv, hiv, getNumUniqueBytes_spans_iff hmap hmax hle hlt hend, hlater⟩

/-- Packets of ten bytes at 0, 3 and 6 seconds with `--analyse-start=5`: the interval is the range
from 20 to 30, and the number of its unique bytes comes out as `2 ^ 64 - 20`. -/
theorem getNumUniqueBytes_wraps :
    ∃ rm, Run.run insertSentRange (new 0) (tensAt [0, 3, 6]) = .ok rm ∧
      (rm.Apart ∧ ∀ e ∈ rm.ranges.entries, e.2.endSeq < 2 ^ 64) ∧
      ∃ iv, rm.setAnalyseRangeInterval ⟨5, 0, 0, .inr rfl⟩ = .ok iv ∧
        (iv.analyseRangeStart = 2 ∧ iv.analyseRangeLast = 2 ∧ iv.analyseRangeEnd = 3) ∧
        ∃ l, rm.analysedRanges iv = .ok l ∧
          l.map (fun e => (e.2.startSeq, e.2.endSeq)) = [(20, 30)] ∧
          rm.getNumUniqueBytes iv = .ok (2 ^ 64 - 20) ∧ ¬rm.SpansData iv := by
  have hrun : ∃ rm, Run.run insertSentRange (new 0) (tensAt [0, 3, 6]) = .ok rm ∧
      (decide (rm.Apart ∧ ∀ e ∈ rm.ranges.entries, e.2.endSeq < 2 ^ 64) &&
        (rm.setAnalyseRangeInterval ⟨5, 0, 0, .inr rfl⟩).toOption.any fun iv : AnalyseRange =>
          decide ((iv.analyseRangeStart = 2 ∧ iv.analyseRangeLast = 2 ∧ iv.analyseRangeEnd = 3) ∧
            (rm.getNumUniqueBytes iv).toOption = some (2 ^ 64 - 20)) &&
          (rm.analysedRanges iv).toOption.any fun l : List Entry =>
            decide (l.map (fun e => (e.2.startSeq, e.2.endSeq)) = [(20, 30)])) = true :=
    Run.exists_of_any_toOption (by decide +kernel)
  obtain ⟨rm, hrm, hok⟩ := hrun
  obtain ⟨hmap, hset⟩ := Bool.and_eq_true_iff.mp hok
  obtain ⟨iv, hiv, hok⟩ := Run.exists_of_any_toOption hset
  obtain ⟨hat, hranges⟩ := Bool.and_eq_true_iff.mp hok
  obtain ⟨l, hl, hlist⟩ := Run.exists_of_any_toOption hranges
  obtain ⟨hiv', hnum⟩ := of_decide_eq_true hat
  have hspan := of_decide_eq_true hlist
  have hnum' : rm.getNumUniqueBytes iv = .ok (2 ^ 64 - 20) := by
    cases hres : rm.getNumUniqueBytes iv with
    | error e =>
      rw [hres] at hnum
      cases hnum
    | ok n =>
      rw [hres] at hnum
      exact congrArg _ (Option.some.inj hnum)
  refine ⟨rm, hrm, of_decide_eq_true hmap, iv, hiv, hiv', l, hl, hspan, hnum', ?_⟩
  rintro ⟨l', n, hl', hn, ⟨first, hfirst, last, hlast, heq⟩, -⟩
  -- the only range with bytes is the one from 20 to 30
  rw [hl] at hl'
  rw [hnum'] at hn
  obtain rfl := Except.ok.inj hl'
  obtain rfl := Except.ok.inj hn
  have hmem : ∀ e ∈ l, e.2.startSeq = 20 ∧ e.2.endSeq = 30 := by
    intro e he
    have hpair := List.mem_map_of_mem (f := fun e : Entry => (e.2.startSeq, e.2.endSeq)) he
    rw [hspan, List.mem_singleton] at hpair
    exact Prod.mk.inj hpair
  have hstart := (hmem first (List.mem_filter.mp (List.mem_of_head? hfirst)).1).1
  have hend := (hmem last (List.mem_filter.mp (List.mem_of_getLast? hlast)).1).2
  rw [hstart, hend] at heq
  exact absurd heq (by decide)

end RangeManager

end AnalyseTCP
