import AnalyseTCP.SentTimes

/-!
# `Connection::setAnalyseRangeInterval`

The ranges between which the statistics are taken.  An iterator is a position in the map, and
`ranges.end()` is the size of the map.  The first range is looked for from the front, the last one
from the back or, for a duration, by a binary search from the first.

The loops over the analysed ranges compare iterators with `!=` only, so they depend on
`analyse_range_start` not being behind `analyse_range_last`.  Nothing compares the two when both
are searched for: on a stream that is shorter than `analyse_start` and `analyse_end` together they
cross.  The reverse search for the last range steps once too far back to the end, so that
`analyse_end` never cuts off as much as it should.
-/

namespace AnalyseTCP

/-- The `--analyse-*` options that `parse_cmd_args` accepts; zero stands for an absent option. -/
structure AnalyseOptions where
  analyseStart : ℤ
  analyseEnd : ℤ
  analyseDuration : ℤ
  notBoth : analyseEnd = 0 ∨ analyseDuration = 0

/-- The check of `parse_cmd_args`. -/
def parseAnalyseOptions (analyseStart analyseEnd analyseDuration : ℤ) : Option AnalyseOptions :=
  if h : analyseEnd = 0 ∨ analyseDuration = 0 then
    some ⟨analyseStart, analyseEnd, analyseDuration, h⟩
  else none

structure AnalyseRange where
  analyseRangeStart : ℕ
  analyseRangeLast : ℕ
  analyseRangeEnd : ℕ
  analyseTimeSecStart : ℤ
  analyseTimeSecEnd : ℤ
deriving DecidableEq, Repr

/-- `sent_tstamp_pcap[0].first`. -/
def ByteRange.firstSent (r : ByteRange) : Except Abort Timeval :=
  match r.sentTstampPcap with
  | [] => .error .outOfRange
  | p :: _ => .ok p.1

namespace RangeManager

/-- `it->second->sent_tstamp_pcap[0].first` for an iterator `it`. -/
def firstSentAt (rm : RangeManager) (it : ℕ) : Except Abort Timeval :=
  match rm.ranges.entries[it]? with
  | none => .error .outOfRange
  | some e => e.2.firstSent

/-- `it++`. -/
def nextIt (rm : RangeManager) (it : ℕ) : Except Abort ℕ :=
  if it < rm.ranges.entries.length then .ok (it + 1) else .error .outOfRange

/-- The loop for `analyse_start`: `start_index` after it, and the seconds after the first range
where it breaks. -/
def scanStart (first : Timeval) (s : ℤ) : List Entry → ℕ → Except Abort (ℕ × Option ℤ)
  | [], startIndex => .ok (startIndex, none)
  | e :: l, startIndex => do
    let t ← e.2.firstSent
    let sec := (t.sub first).tvSec
    if s ≤ sec then return (startIndex, some sec) else scanStart first s l (startIndex + 1)

/-- The loop for `analyse_end` over the reversed map: `rit.base()` where it breaks, which is the
position after `rit`, and the send time there. -/
def scanEnd (last : Timeval) (s : ℤ) : List Entry → Except Abort (Option (ℕ × Timeval))
  | [] => .ok none
  | e :: l => do
    let t ← e.2.firstSent
    if s ≤ (last.sub t).tvSec then return some (l.length + 1, t) else scanEnd last s l

/-- The binary search for `analyse_duration`, where `startIndex` never exceeds `endIndex`. -/
def searchEnd (rm : RangeManager) (duration : ℤ) (beginTv : Timeval)
    (beginIt startIndex endIndex : ℕ) : Except Abort ℕ :=
  let advance := (endIndex - startIndex) / 2
  if _h : advance = 0 then .ok beginIt
  else do
    let t ← rm.firstSentAt (beginIt + advance)
    if (t.sub beginTv).tvSec ≤ duration then
      searchEnd rm duration beginTv (beginIt + advance) (startIndex + advance) endIndex
    else searchEnd rm duration beginTv beginIt startIndex (endIndex - advance)
termination_by endIndex - startIndex

/-- `analyse_range_start`, the `start_index` that the binary search starts from, and
`analyse_time_sec_start`. -/
def findStart (rm : RangeManager) (o : AnalyseOptions) (first : Timeval) :
    Except Abort (ℕ × ℕ × ℤ) := do
  if o.analyseStart = 0 then return (0, 0, o.analyseStart)
  let (startIndex, found) ← scanStart first o.analyseStart rm.ranges.entries 0
  match found with
  | some sec => return (startIndex, startIndex, sec)
  -- no range is that late: the first one stays, but `start_index` has run through the map
  | none => return (0, startIndex, o.analyseStart)

def setAnalyseRangeInterval (rm : RangeManager) (o : AnalyseOptions) :
    Except Abort AnalyseRange := do
  let size := rm.ranges.entries.length
  let first ← rm.firstSentAt 0
  let last ← rm.firstSentAt (size - 1)
  let (start, startIndex, secStart) ← rm.findStart o first
  if o.analyseEnd ≠ 0 then
    match ← scanEnd last o.analyseEnd rm.ranges.entries.reverse with
    -- no range is that far from the end: the initial values stay
    | none => return ⟨start, size - 1, size, secStart, (last.sub first).tvSec⟩
    | some (base, t) =>
      -- `rit.base()` is already one behind `rit`, and the end one further
      let stop ← rm.nextIt base
      return ⟨start, base, stop, secStart, (t.sub first).tvSec⟩
  else if o.analyseDuration ≠ 0 then
    let beginTv ← rm.firstSentAt start
    let beginIt ← rm.searchEnd o.analyseDuration beginTv start startIndex size
    let stop ← rm.nextIt beginIt
    return ⟨start, beginIt, stop, secStart, secStart + o.analyseDuration⟩
  else return ⟨start, size - 1, size, secStart, (last.sub first).tvSec⟩

/-- `for (; it != it_end; it++)` over the entries from `it` on: the entries it visits. -/
def visitTo (itEnd : ℕ) : ℕ → List Entry → Except Abort (List Entry)
  | it, l =>
    if it = itEnd then .ok []
    else
      match l with
      | [] => .error .outOfRange
      | e :: l => do
        let rest ← visitTo itEnd (it + 1) l
        return e :: rest

/-- What the loops from `analyse_range_start` to `analyse_range_end` visit. -/
def analysedRanges (rm : RangeManager) (iv : AnalyseRange) : Except Abort (List Entry) :=
  visitTo iv.analyseRangeEnd iv.analyseRangeStart (rm.ranges.entries.drop iv.analyseRangeStart)

end RangeManager

/-- The first send time, which every range in the map has. -/
def ByteRange.firstSend (r : ByteRange) : Timeval :=
  (r.sentTstampPcap.head?.map Prod.fst).getD .zero

theorem ByteRange.firstSent_eq {r : ByteRange} (h : r.sentTstampPcap ≠ []) :
    r.firstSent = .ok r.firstSend := by
  unfold firstSent firstSend
  cases hsent : r.sentTstampPcap with
  | nil => exact absurd hsent h
  | cons p l => rfl

/-- The whole seconds since a later time are not more. -/
theorem Timeval.tvSec_sub_le {t t' : Timeval} (a : Timeval) (h : t'.before t = false) :
    (a.sub t').tvSec ≤ (a.sub t).tvSec := by
  unfold before at h
  unfold sub
  split at h
  · have husec : t.tvUsec ≤ t'.tvUsec := not_lt.mp (of_decide_eq_false h)
    split <;> split <;> dsimp only <;> omega
  · have hsec : t.tvSec ≤ t'.tvSec := not_lt.mp (of_decide_eq_false h)
    split <;> split <;> dsimp only <;> omega

theorem Timeval.tvSec_sub_self (t : Timeval) : (t.sub t).tvSec = 0 := by
  unfold Timeval.sub
  simp

namespace RangeManager

def beginSend (rm : RangeManager) : Timeval :=
  (rm.ranges.entries.head?.map fun e => e.2.firstSend).getD .zero

def lastSend (rm : RangeManager) : Timeval :=
  (rm.ranges.entries.getLast?.map fun e => e.2.firstSend).getD .zero

/-- The whole seconds from the first send time of the first range to that of `r`. -/
def secsIn (rm : RangeManager) (r : ByteRange) : ℤ := (r.firstSend.sub rm.beginSend).tvSec

/-- The whole seconds from the first send time of `r` to that of the last range. -/
def secsLeft (rm : RangeManager) (r : ByteRange) : ℤ := (rm.lastSend.sub r.firstSend).tvSec

/-- The range at `it` was sent at least `s` seconds after the first one. -/
def SentIn (rm : RangeManager) (s : ℤ) (it : ℕ) : Prop :=
  ∃ e ∈ rm.ranges.entries[it]?, s ≤ rm.secsIn e.2

/-- The range at `it` was sent at least `s` seconds before the last one. -/
def SentBeforeLast (rm : RangeManager) (s : ℤ) (it : ℕ) : Prop :=
  ∃ e ∈ rm.ranges.entries[it]?, s ≤ rm.secsLeft e.2

instance (rm : RangeManager) (s : ℤ) (it : ℕ) : Decidable (rm.SentIn s it) :=
  inferInstanceAs (Decidable (∃ e ∈ _, _))

instance (rm : RangeManager) (s : ℤ) (it : ℕ) : Decidable (rm.SentBeforeLast s it) :=
  inferInstanceAs (Decidable (∃ e ∈ _, _))

def FirstSentIn (rm : RangeManager) (s : ℤ) (it : ℕ) : Prop :=
  rm.SentIn s it ∧ ∀ j < it, ¬rm.SentIn s j

instance (rm : RangeManager) (s : ℤ) (it : ℕ) : Decidable (rm.FirstSentIn s it) :=
  inferInstanceAs (Decidable (_ ∧ ∀ j < it, _))

section Searches

variable {rm : RangeManager} {o : AnalyseOptions} {s : ℤ}

theorem firstSentAt_eq (hsent : rm.AllSent) {it : ℕ} {e : Entry}
    (h : rm.ranges.entries[it]? = some e) : rm.firstSentAt it = .ok e.2.firstSend := by
  unfold firstSentAt
  rw [h]
  exact ByteRange.firstSent_eq (hsent e (List.mem_of_getElem? h))

theorem firstSentAt_zero (hsent : rm.AllSent) (hne : rm.ranges.entries ≠ []) :
    rm.firstSentAt 0 = .ok rm.beginSend := by
  obtain ⟨e, l, hl⟩ := List.exists_cons_of_ne_nil hne
  rw [firstSentAt_eq hsent (e := e) (by rw [hl]; rfl)]
  unfold beginSend
  rw [hl]
  rfl

theorem firstSentAt_last (hsent : rm.AllSent) (hne : rm.ranges.entries ≠ []) :
    rm.firstSentAt (rm.ranges.entries.length - 1) = .ok rm.lastSend := by
  have hlast : rm.ranges.entries[rm.ranges.entries.length - 1]? = rm.ranges.entries.getLast? :=
    List.getLast?_eq_getElem?.symm
  rw [List.getLast?_eq_some_getLast hne] at hlast
  rw [firstSentAt_eq hsent hlast]
  unfold lastSend
  rw [List.getLast?_eq_some_getLast hne]
  rfl

/-! ## The first range -/

/-- `it` is where the analysis starts: the first range sent `s` seconds into the stream, or the
first range of all when there is none. -/
def StartsAt (rm : RangeManager) (s : ℤ) (it : ℕ) : Prop :=
  rm.FirstSentIn s it ∨ (it = 0 ∧ ∀ j, ¬rm.SentIn s j)

theorem scanStart_eq {first : Timeval} {l : List Entry}
    (hsent : ∀ e ∈ l, e.2.sentTstampPcap ≠ []) (i : ℕ) :
    scanStart first s l i =
      .ok (i + l.findIdx (fun e => decide (s ≤ (e.2.firstSend.sub first).tvSec)),
        (l.find? fun e => decide (s ≤ (e.2.firstSend.sub first).tvSec)).map fun e =>
          (e.2.firstSend.sub first).tvSec) := by
  induction l generalizing i with
  | nil => rfl
  | cons e l ih =>
    have hrest := ih (fun d hd => hsent d (List.mem_cons_of_mem e hd)) (i + 1)
    unfold scanStart
    rw [ByteRange.firstSent_eq (hsent e List.mem_cons_self), Run.ok_bind]
    by_cases hsec : s ≤ (e.2.firstSend.sub first).tvSec
    · simp [hsec, List.findIdx_cons, pure, Except.pure]
    · simp [hsec, List.findIdx_cons, hrest]
      omega

theorem sentIn_zero (hne : rm.ranges.entries ≠ []) (hs : s ≤ 0) : rm.SentIn s 0 := by
  obtain ⟨e, l, hl⟩ := List.exists_cons_of_ne_nil hne
  refine ⟨e, by rw [hl]; rfl, ?_⟩
  unfold secsIn beginSend
  rw [hl]
  exact hs.trans (Timeval.tvSec_sub_self e.2.firstSend).ge

theorem firstSentIn_zero (hne : rm.ranges.entries ≠ []) (hs : s ≤ 0) : rm.FirstSentIn s 0 :=
  ⟨sentIn_zero hne hs, fun j hj => absurd hj (Nat.not_lt_zero j)⟩

/-- When the loop for `analyse_start` does not break, `start_index` is left at the size of the map
while the analysis starts at the first range. -/
theorem findStart_cases (hsent : rm.AllSent) (hne : rm.ranges.entries ≠ []) :
    ∃ start startIndex sec, rm.findStart o rm.beginSend = .ok (start, startIndex, sec) ∧
      start < rm.ranges.entries.length ∧
      ((rm.FirstSentIn o.analyseStart start ∧ startIndex = start) ∨
        (start = 0 ∧ (∀ j, ¬rm.SentIn o.analyseStart j) ∧
          startIndex = rm.ranges.entries.length)) := by
  have hpos : 0 < rm.ranges.entries.length := List.length_pos_of_ne_nil hne
  unfold findStart
  by_cases hzero : o.analyseStart = 0
  · rw [if_pos hzero]
    exact ⟨0, 0, _, rfl, hpos, .inl ⟨firstSentIn_zero hne hzero.le, rfl⟩⟩
  rw [if_neg hzero, scanStart_eq hsent, Run.ok_bind, Nat.zero_add]
  have hlate : ∀ j (hj : j < rm.ranges.entries.length), rm.SentIn o.analyseStart j ↔
      o.analyseStart ≤ ((rm.ranges.entries[j]).2.firstSend.sub rm.beginSend).tvSec := by
    intro j hj
    unfold SentIn secsIn
    rw [List.getElem?_eq_getElem hj]
    simp
  set late : Entry → Bool := fun e =>
    decide (o.analyseStart ≤ (e.2.firstSend.sub rm.beginSend).tvSec) with hdef
  -- the ranges that the loop goes past were sent too early
  have hbefore : ∀ j < rm.ranges.entries.findIdx late, ¬rm.SentIn o.analyseStart j := by
    intro j hj hin
    have hlt : j < rm.ranges.entries.length := hj.trans_le List.findIdx_le_length
    have hfalse := List.not_of_lt_findIdx hj
    have htrue := (hlate j hlt).mp hin
    simp [hdef] at hfalse
    omega
  cases hfind : rm.ranges.entries.find? late with
  | none =>
    -- the loop ends with `start_index` at the size of the map
    have hall := List.find?_eq_none.mp hfind
    have hend : rm.ranges.entries.findIdx late = rm.ranges.entries.length :=
      List.findIdx_eq_length.mpr fun e he => by simpa using hall e he
    refine ⟨0, _, _, rfl, hpos, .inr ⟨rfl, ?_, hend⟩⟩
    intro j hin
    obtain ⟨e, he, -⟩ := id hin
    have hlt : j < rm.ranges.entries.length := (List.getElem?_eq_some_iff.mp he).1
    exact hbefore j (by rw [hend]; exact hlt) hin
  | some e =>
    have hlt : rm.ranges.entries.findIdx late < rm.ranges.entries.length :=
      List.findIdx_lt_length_of_exists ⟨e, List.mem_of_find?_eq_some hfind, List.find?_some hfind⟩
    have hat : late rm.ranges.entries[rm.ranges.entries.findIdx late] = true :=
      List.findIdx_getElem
    refine ⟨_, _, _, rfl, hlt, .inl ⟨⟨?_, hbefore⟩, rfl⟩⟩
    apply (hlate _ hlt).mpr
    exact of_decide_eq_true hat

theorem findStart_spec (hsent : rm.AllSent) (hne : rm.ranges.entries ≠ []) :
    ∃ start startIndex sec, rm.findStart o rm.beginSend = .ok (start, startIndex, sec) ∧
      rm.StartsAt o.analyseStart start ∧ start < rm.ranges.entries.length ∧
      (startIndex = start ∨ startIndex = rm.ranges.entries.length) := by
  obtain ⟨start, startIndex, sec, hfind, hlt, ⟨hfirst, heq⟩ | ⟨hzero, hnone, heq⟩⟩ :=
    findStart_cases (o := o) hsent hne
  · exact ⟨start, startIndex, sec, hfind, .inl hfirst, hlt, .inl heq⟩
  · exact ⟨start, startIndex, sec, hfind, .inr ⟨hzero, hnone⟩, hlt, .inr heq⟩

/-! ## The last range -/

/-- `it` is the last range for `analyse_end`: the one after the last range that was sent `s` seconds
before the end of the stream, or the last of all when there is none. -/
def LastAt (rm : RangeManager) (s : ℤ) (it : ℕ) : Prop :=
  (∃ i, rm.SentBeforeLast s i ∧ (∀ j, i < j → ¬rm.SentBeforeLast s j) ∧ it = i + 1) ∨
    ((∀ j, ¬rm.SentBeforeLast s j) ∧ it = rm.ranges.entries.length - 1)

theorem scanEnd_cases (last : Timeval) (s : ℤ) {l : List Entry}
    (hsent : ∀ e ∈ l, e.2.sentTstampPcap ≠ []) :
    (scanEnd last s l = .ok none ∧ ∀ e ∈ l, ¬s ≤ (last.sub e.2.firstSend).tvSec) ∨
      ∃ pre e post, l = pre ++ e :: post ∧ s ≤ (last.sub e.2.firstSend).tvSec ∧
        (∀ d ∈ pre, ¬s ≤ (last.sub d.2.firstSend).tvSec) ∧
        scanEnd last s l = .ok (some (post.length + 1, e.2.firstSend)) := by
  induction l with
  | nil => exact .inl ⟨rfl, List.forall_mem_nil _⟩
  | cons e l ih =>
    unfold scanEnd
    rw [ByteRange.firstSent_eq (hsent e List.mem_cons_self), Run.ok_bind]
    by_cases hsec : s ≤ (last.sub e.2.firstSend).tvSec
    · refine .inr ⟨[], e, l, rfl, hsec, List.forall_mem_nil _, ?_⟩
      rw [if_pos hsec]
      rfl
    · rw [if_neg hsec]
      rcases ih fun d hd => hsent d (List.mem_cons_of_mem e hd) with
        ⟨hscan, hall⟩ | ⟨pre, d, post, hl, hd, hpre, hscan⟩
      · exact .inl ⟨hscan, List.forall_mem_cons.mpr ⟨hsec, hall⟩⟩
      · refine .inr ⟨e :: pre, d, post, by rw [hl]; rfl, hd, ?_, hscan⟩
        exact List.forall_mem_cons.mpr ⟨hsec, hpre⟩

theorem sentBeforeLast_last (hne : rm.ranges.entries ≠ []) :
    rm.SentBeforeLast s (rm.ranges.entries.length - 1) ↔ s ≤ 0 := by
  have hlast : rm.ranges.entries[rm.ranges.entries.length - 1]? =
      some (rm.ranges.entries.getLast hne) := by
    rw [← List.getLast?_eq_getElem?, List.getLast?_eq_some_getLast hne]
  have hsecs : rm.secsLeft (rm.ranges.entries.getLast hne).2 = 0 := by
    unfold secsLeft lastSend
    rw [List.getLast?_eq_some_getLast hne]
    exact Timeval.tvSec_sub_self _
  unfold SentBeforeLast
  rw [hlast]
  simp [hsecs]

/-- The reverse search.  The last range is no seconds before itself, so the search cannot stop there
and there is a range at `rit.base()`. -/
theorem scanEnd_spec (hsent : rm.AllSent) (hne : rm.ranges.entries ≠ []) (hs : 0 < s) :
    (scanEnd rm.lastSend s rm.ranges.entries.reverse = .ok none ∧
      ∀ j, ¬rm.SentBeforeLast s j) ∨
      ∃ i t, scanEnd rm.lastSend s rm.ranges.entries.reverse = .ok (some (i + 1, t)) ∧
        rm.SentBeforeLast s i ∧ (∀ j, i < j → ¬rm.SentBeforeLast s j) ∧
        i + 1 < rm.ranges.entries.length := by
  have hrev : ∀ e ∈ rm.ranges.entries.reverse, e.2.sentTstampPcap ≠ [] :=
    fun e he => hsent e (List.mem_reverse.mp he)
  rcases scanEnd_cases rm.lastSend s hrev with
    ⟨hscan, hall⟩ | ⟨pre, e, post, hcut, he, hpre, hscan⟩
  · refine .inl ⟨hscan, ?_⟩
    rintro j ⟨e, he, hsec⟩
    exact hall e (List.mem_reverse.mpr (List.mem_of_getElem? he)) hsec
  · -- in the map, `rit` stands behind what the reversed scan has not seen
    have hentries : rm.ranges.entries = post.reverse ++ e :: pre.reverse := by
      rw [← List.reverse_reverse rm.ranges.entries, hcut]
      simp
    have hbefore : rm.SentBeforeLast s post.length := by
      refine ⟨e, ?_, he⟩
      rw [hentries, List.getElem?_append_right (by simp)]
      simp
    have hafter : ∀ j, post.length < j → ¬rm.SentBeforeLast s j := by
      rintro j hj ⟨d, hd, hsec⟩
      rw [hentries, List.getElem?_append_right (by simp; omega), List.length_reverse,
        show j - post.length = (j - post.length - 1) + 1 by omega] at hd
      exact hpre d (List.mem_reverse.mp (List.mem_of_getElem? hd)) hsec
    refine .inr ⟨post.length, e.2.firstSend, hscan, hbefore, hafter, ?_⟩
    -- at the last range no second is left
    by_contra hnot
    have hlt : post.length < rm.ranges.entries.length := by
      obtain ⟨d, hd, -⟩ := hbefore
      exact (List.getElem?_eq_some_iff.mp hd).1
    have hend : post.length = rm.ranges.entries.length - 1 := by omega
    rw [hend, sentBeforeLast_last hne] at hbefore
    omega

/-- The binary search stays in the map, and does not go back behind where it starts. -/
theorem searchEnd_spec (hsent : rm.AllSent) (duration : ℤ) (beginTv : Timeval)
    {beginIt startIndex endIndex : ℕ} (hle : startIndex ≤ endIndex)
    (hbegin : beginIt < rm.ranges.entries.length)
    (hroom : beginIt + (endIndex - startIndex) ≤ rm.ranges.entries.length) :
    ∃ it, rm.searchEnd duration beginTv beginIt startIndex endIndex = .ok it ∧ beginIt ≤ it ∧
      it < rm.ranges.entries.length := by
  -- the distance that is left shrinks with every probe
  induction hdist : endIndex - startIndex using Nat.strong_induction_on
    generalizing beginIt startIndex endIndex with
  | _ dist ih =>
    unfold searchEnd
    by_cases hzero : (endIndex - startIndex) / 2 = 0
    · rw [dif_pos hzero]
      exact ⟨beginIt, rfl, le_rfl, hbegin⟩
    set advance := (endIndex - startIndex) / 2 with hadvance
    have hprobe : beginIt + advance < rm.ranges.entries.length := by omega
    rw [dif_neg hzero, firstSentAt_eq hsent (List.getElem?_eq_getElem hprobe), Run.ok_bind]
    split
    · have hle' : startIndex + advance ≤ endIndex := by omega
      have hroom' : beginIt + advance + (endIndex - (startIndex + advance)) ≤
          rm.ranges.entries.length := by omega
      obtain ⟨it, hit, hge, hlt⟩ := ih _ (by omega) hle' hprobe hroom' rfl
      exact ⟨it, hit, by omega, hlt⟩
    · exact ih (endIndex - advance - startIndex) (by omega) (by omega) hbegin (by omega) rfl

theorem nextIt_eq {it : ℕ} (h : it < rm.ranges.entries.length) : rm.nextIt it = .ok (it + 1) :=
  if_pos h

theorem setAnalyseRangeInterval_spec (hsent : rm.AllSent) (hne : rm.ranges.entries ≠ [])
    (hend : 0 ≤ o.analyseEnd) :
    ∃ iv, rm.setAnalyseRangeInterval o = .ok iv ∧
      rm.StartsAt o.analyseStart iv.analyseRangeStart ∧
      iv.analyseRangeStart < rm.ranges.entries.length ∧
      iv.analyseRangeLast < rm.ranges.entries.length ∧
      iv.analyseRangeEnd = iv.analyseRangeLast + 1 ∧
      (o.analyseEnd = 0 → iv.analyseRangeStart ≤ iv.analyseRangeLast) ∧
      (o.analyseEnd ≠ 0 → rm.LastAt o.analyseEnd iv.analyseRangeLast) := by
  obtain ⟨start, startIndex, sec, hfind, hstart, hlt, hindex⟩ := findStart_spec (o := o) hsent hne
  have hsize : rm.ranges.entries.length - 1 + 1 = rm.ranges.entries.length := by omega
  have hback : rm.ranges.entries.length - 1 < rm.ranges.entries.length := by omega
  have hle : start ≤ rm.ranges.entries.length - 1 := by omega
  unfold setAnalyseRangeInterval
  rw [firstSentAt_zero hsent hne, Run.ok_bind, firstSentAt_last hsent hne, Run.ok_bind, hfind,
    Run.ok_bind]
  dsimp only
  by_cases hzero : o.analyseEnd = 0
  · rw [if_neg (not_not.mpr hzero)]
    by_cases hduration : o.analyseDuration = 0
    · -- the whole map from the first range on
      rw [if_neg (not_not.mpr hduration)]
      exact ⟨_, rfl, hstart, hlt, hback, hsize.symm, fun _ => hle, absurd hzero⟩
    · -- the search has room for `end_index - start_index` steps, both where the first loop broke
      -- and where it did not
      have hindex' : startIndex ≤ rm.ranges.entries.length := by omega
      have hroom : start + (rm.ranges.entries.length - startIndex) ≤ rm.ranges.entries.length := by
        omega
      obtain ⟨it, hit, hge, hin⟩ := searchEnd_spec hsent o.analyseDuration
        rm.ranges.entries[start].2.firstSend hindex' hlt hroom
      rw [if_pos hduration, firstSentAt_eq hsent (List.getElem?_eq_getElem hlt), Run.ok_bind, hit,
        Run.ok_bind, nextIt_eq hin, Run.ok_bind]
      exact ⟨_, rfl, hstart, hlt, hin, rfl, fun _ => hge, absurd hzero⟩
  · rw [if_pos hzero]
    rcases scanEnd_spec hsent hne (show 0 < o.analyseEnd by omega) with
      ⟨hscan, hnone⟩ | ⟨i, t, hscan, hbefore, hafter, hin⟩
    · rw [hscan, Run.ok_bind]
      exact ⟨_, rfl, hstart, hlt, hback, hsize.symm, fun h => absurd h hzero,
        fun _ => .inr ⟨hnone, rfl⟩⟩
    · rw [hscan, Run.ok_bind]
      dsimp only
      rw [nextIt_eq hin, Run.ok_bind]
      exact ⟨_, rfl, hstart, hlt, hin, rfl, fun h => absurd h hzero,
        fun _ => .inl ⟨i, hbefore, hafter, rfl⟩⟩

/-! ## The loops over the analysed ranges -/

theorem visitTo_eq {l : List Entry} {itEnd it : ℕ} (hle : it ≤ itEnd)
    (hin : itEnd ≤ it + l.length) : visitTo itEnd it l = .ok (l.take (itEnd - it)) := by
  induction l generalizing it with
  | nil =>
    have hend : it = itEnd := by simpa using le_antisymm hle hin
    unfold visitTo
    rw [if_pos hend]
    simp
  | cons e l ih =>
    unfold visitTo
    by_cases hend : it = itEnd
    · rw [if_pos hend, hend]
      simp
    · rw [if_neg hend]
      simp only [List.length_cons] at hin
      dsimp only
      rw [ih (by omega) (by omega), Run.ok_bind, show itEnd - it = itEnd - (it + 1) + 1 by omega]
      rfl

/-- A loop that starts behind its end runs off the map. -/
theorem visitTo_of_lt {l : List Entry} {itEnd it : ℕ} (hlt : itEnd < it) :
    visitTo itEnd it l = .error .outOfRange := by
  induction l generalizing it with
  | nil =>
    unfold visitTo
    rw [if_neg hlt.ne']
  | cons e l ih =>
    unfold visitTo
    rw [if_neg hlt.ne']
    dsimp only
    rw [ih (by omega)]
    rfl

/-- A loop that stays inside visits a prefix. -/
theorem exists_of_visitTo {itEnd it : ℕ} {all l : List Entry}
    (h : visitTo itEnd it all = .ok l) : ∃ rest, all = l ++ rest := by
  induction all generalizing it l with
  | nil =>
    unfold visitTo at h
    by_cases hend : it = itEnd
    · rw [if_pos hend] at h
      obtain rfl := Except.ok.inj h
      exact ⟨[], rfl⟩
    · rw [if_neg hend] at h
      cases h
  | cons d all ih =>
    unfold visitTo at h
    by_cases hend : it = itEnd
    · rw [if_pos hend] at h
      obtain rfl := Except.ok.inj h
      exact ⟨d :: all, rfl⟩
    · rw [if_neg hend] at h
      obtain ⟨visited, hvisit, h⟩ := Run.exists_of_bind_ok h
      obtain rfl := Except.ok.inj h
      obtain ⟨rest, rfl⟩ := ih hvisit
      exact ⟨rest, rfl⟩

theorem analysedRanges_sublist {rm : RangeManager} {iv : AnalyseRange} {l : List Entry}
    (h : rm.analysedRanges iv = .ok l) : l.Sublist rm.ranges.entries := by
  obtain ⟨rest, hrest⟩ := exists_of_visitTo h
  have hprefix : l.Sublist (l ++ rest) := List.sublist_append_left l rest
  rw [← hrest] at hprefix
  exact hprefix.trans (List.drop_sublist _ _)

end Searches

/-! ## A well-ordered interval -/

section Ordered

variable {rm : RangeManager} {o : AnalyseOptions}

/-- The interval is one of the map: the loops over it stay inside. -/
structure WellOrdered (rm : RangeManager) (iv : AnalyseRange) : Prop where
  start_le_last : iv.analyseRangeStart ≤ iv.analyseRangeLast
  last_lt : iv.analyseRangeLast < rm.ranges.entries.length
  end_eq : iv.analyseRangeEnd = iv.analyseRangeLast + 1
  visits : ∃ l, rm.analysedRanges iv = .ok l

/-- The two ends do not cross: if ranges were sent `analyse_end` seconds before the last one, then
the range before the first one that was sent `analyse_start` seconds into the stream is one of them,
or a later one is. -/
def Uncrossed (rm : RangeManager) (o : AnalyseOptions) : Prop :=
  ∀ a < rm.ranges.entries.length, rm.FirstSentIn o.analyseStart a →
    (∃ i < rm.ranges.entries.length, rm.SentBeforeLast o.analyseEnd i) →
    ∃ i < rm.ranges.entries.length, rm.SentBeforeLast o.analyseEnd i ∧ a ≤ i + 1

instance (rm : RangeManager) (o : AnalyseOptions) : Decidable (rm.Uncrossed o) :=
  inferInstanceAs (Decidable (∀ a < _, _ → _ → _))

theorem SentBeforeLast.lt {s : ℤ} {it : ℕ} (h : rm.SentBeforeLast s it) :
    it < rm.ranges.entries.length := by
  obtain ⟨e, he, -⟩ := h
  exact (List.getElem?_eq_some_iff.mp he).1

theorem StartsAt.eq_first {s : ℤ} {a it : ℕ} (h : rm.StartsAt s it) (ha : rm.FirstSentIn s a) :
    it = a := by
  rcases h with ⟨hin, hbefore⟩ | ⟨-, hnone⟩
  · apply le_antisymm
    · exact not_lt.mp fun hlt => hbefore a hlt ha.1
    · exact not_lt.mp fun hlt => ha.2 it hlt hin
  · exact absurd ha.1 (hnone a)

/-- Where the two searches end decides whether they cross. -/
theorem start_le_last_iff {start last : ℕ} (hstart : rm.StartsAt o.analyseStart start)
    (hlt : start < rm.ranges.entries.length) (hlast : rm.LastAt o.analyseEnd last) :
    start ≤ last ↔ rm.Uncrossed o := by
  constructor
  · intro hle a _ hfirst hsome
    rcases hlast with ⟨i, hbefore, -, rfl⟩ | ⟨hnone, -⟩
    · rw [hstart.eq_first hfirst] at hle
      exact ⟨i, hbefore.lt, hbefore, hle⟩
    · obtain ⟨i, -, hi⟩ := hsome
      exact absurd hi (hnone i)
  · intro huncrossed
    rcases hlast with ⟨i, hbefore, hafter, rfl⟩ | ⟨-, rfl⟩
    · -- the reverse search stops at the last range of its kind, so no other is nearer the start
      rcases hstart with hfirst | ⟨rfl, -⟩
      · obtain ⟨j, -, hj, hle⟩ := huncrossed start hlt hfirst ⟨i, hbefore.lt, hbefore⟩
        have hji : j ≤ i := not_lt.mp fun hij => hafter j hij hj
        omega
      · exact Nat.zero_le _
    · omega

/-- Without `analyse_end` the ends cannot cross. -/
theorem uncrossed_of_zero (hne : rm.ranges.entries ≠ []) (hzero : o.analyseEnd = 0) :
    rm.Uncrossed o := by
  intro a ha _ _
  have hlast : rm.SentBeforeLast o.analyseEnd (rm.ranges.entries.length - 1) :=
    (sentBeforeLast_last hne).mpr hzero.le
  exact ⟨_, hlast.lt, hlast, by omega⟩

/-- The analysed interval is well-ordered exactly when the ends do not cross.  A duration keeps them
in order by itself. -/
theorem setAnalyseRangeInterval_ordered_iff (hsent : rm.AllSent) (hne : rm.ranges.entries ≠ [])
    (hend : 0 ≤ o.analyseEnd) :
    (∃ iv, rm.setAnalyseRangeInterval o = .ok iv ∧ rm.WellOrdered iv) ↔ rm.Uncrossed o := by
  obtain ⟨iv, hset, hstart, hlt, hlast, heq, hzero, hends⟩ :=
    setAnalyseRangeInterval_spec hsent hne hend
  have hiff : iv.analyseRangeStart ≤ iv.analyseRangeLast ↔ rm.Uncrossed o := by
    by_cases h : o.analyseEnd = 0
    · exact iff_of_true (hzero h) (uncrossed_of_zero hne h)
    · exact start_le_last_iff hstart hlt (hends h)
  rw [← hiff]
  constructor
  · rintro ⟨iv', hset', hordered⟩
    rw [hset] at hset'
    cases hset'
    exact hordered.start_le_last
  · intro hle
    refine ⟨iv, hset, hle, hlast, heq, _, visitTo_eq (by omega) ?_⟩
    rw [List.length_drop]
    omega

end Ordered

/-- Packets of ten bytes, sent at these seconds. -/
def tensAt (secs : List ℤ) : List SendData :=
  secs.zipIdx.map fun (sec, i) =>
    { data :=
        { seq := 10 * i, endSeq := 10 * i + 10, payloadSize := 10, tstampPcap := ⟨1000 + sec, 0⟩ } }

theorem setAnalyseRangeInterval_ordered_iff_apart :
    ∃ rm, Run.run insertSentRange (new 0) (tensAt [0, 3, 6, 9]) = .ok rm ∧
      ((∃ iv, rm.setAnalyseRangeInterval ⟨2, 4, 0, .inr rfl⟩ = .ok iv ∧ rm.WellOrdered iv) ↔
        rm.Uncrossed ⟨2, 4, 0, .inr rfl⟩) ∧ rm.Uncrossed ⟨2, 4, 0, .inr rfl⟩ := by
  have hrun : ∃ rm, Run.run insertSentRange (new 0) (tensAt [0, 3, 6, 9]) = .ok rm ∧
      decide (rm.AllSent ∧ rm.ranges.entries ≠ [] ∧ rm.Uncrossed ⟨2, 4, 0, .inr rfl⟩) = true :=
    Run.exists_of_any_toOption (by decide +kernel)
  obtain ⟨rm, hrm, hok⟩ := hrun
  obtain ⟨hsent, hne, huncrossed⟩ := of_decide_eq_true hok
  exact ⟨rm, hrm, setAnalyseRangeInterval_ordered_iff hsent hne (by decide), huncrossed⟩

/-- Five packets in eight seconds, with `--analyse-start=6 --analyse-end=6`: the interval starts at
the last of them and ends behind the second, and the loops over it run off the map. -/
theorem setAnalyseRangeInterval_crosses :
    parseAnalyseOptions 6 6 0 = some ⟨6, 6, 0, .inr rfl⟩ ∧
    ∃ rm, Run.run insertSentRange (new 0) (tensAt [0, 4, 4, 4, 8]) = .ok rm ∧
      ∃ iv, rm.setAnalyseRangeInterval ⟨6, 6, 0, .inr rfl⟩ = .ok iv ∧
        (iv.analyseRangeStart = 4 ∧ iv.analyseRangeLast = 1 ∧ iv.analyseRangeEnd = 2) ∧
        rm.analysedRanges iv = .error .outOfRange := by
  have hrun : ∃ rm, Run.run insertSentRange (new 0) (tensAt [0, 4, 4, 4, 8]) = .ok rm ∧
      (rm.setAnalyseRangeInterval ⟨6, 6, 0, .inr rfl⟩).toOption.any (fun iv : AnalyseRange =>
        decide (iv.analyseRangeStart = 4 ∧ iv.analyseRangeLast = 1 ∧ iv.analyseRangeEnd = 2)) =
        true :=
    Run.exists_of_any_toOption (by decide +kernel)
  obtain ⟨rm, hrm, hset⟩ := hrun
  obtain ⟨iv, hiv, hok⟩ := Run.exists_of_any_toOption hset
  have hat := of_decide_eq_true hok
  refine ⟨rfl, rm, hrm, iv, hiv, hat, ?_⟩
  exact visitTo_of_lt (by omega)

/-! ## `analyse_end` -/

/-- The analysed ranges are those that were sent `analyse_end` seconds before the last one. -/
def ExcludesTail (rm : RangeManager) (o : AnalyseOptions) : Prop :=
  ∃ iv, rm.setAnalyseRangeInterval o = .ok iv ∧
    rm.analysedRanges iv =
      .ok (rm.ranges.entries.filter fun e => decide (o.analyseEnd ≤ rm.secsLeft e.2))

section Tail

variable {rm : RangeManager} {o : AnalyseOptions}

/-- The analysis with `analyse_end` alone takes the ranges up to the last one that was sent that
many seconds before the end of the stream, and one range more. -/
theorem setAnalyseRangeInterval_end (hsent : rm.AllSent) (hstart : o.analyseStart = 0)
    (hend : 1 ≤ o.analyseEnd) (hsome : ∃ i, rm.SentBeforeLast o.analyseEnd i) :
    ∃ iv i, rm.setAnalyseRangeInterval o = .ok iv ∧ rm.SentBeforeLast o.analyseEnd i ∧
      (∀ j, i < j → ¬rm.SentBeforeLast o.analyseEnd j) ∧ i + 1 < rm.ranges.entries.length ∧
      rm.analysedRanges iv = .ok (rm.ranges.entries.take (i + 2)) := by
  have hne : rm.ranges.entries ≠ [] := by
    obtain ⟨i, hi⟩ := hsome
    exact List.ne_nil_of_length_pos (Nat.zero_lt_of_lt hi.lt)
  obtain ⟨iv, hset, hfirst, -, hlast, heq, -, hends⟩ :=
    setAnalyseRangeInterval_spec (o := o) hsent hne (by omega)
  have hzero : iv.analyseRangeStart = 0 :=
    hfirst.eq_first (firstSentIn_zero hne hstart.le)
  rcases hends (by omega) with ⟨i, hbefore, hafter, hi⟩ | ⟨hnone, -⟩
  · refine ⟨iv, i, hset, hbefore, hafter, by omega, ?_⟩
    unfold analysedRanges
    rw [hzero, List.drop_zero, visitTo_eq (Nat.zero_le _) (by omega), heq, hi, Nat.sub_zero]
  · obtain ⟨i, hi⟩ := hsome
    exact absurd hi (hnone i)

/-- `analyse_end` never excludes the tail: the range after the last one that should be analysed is
analysed as well. -/
theorem setAnalyseRangeInterval_keeps_tail (hsent : rm.AllSent) (hstart : o.analyseStart = 0)
    (hend : 1 ≤ o.analyseEnd) (hsome : ∃ i, rm.SentBeforeLast o.analyseEnd i) :
    ¬rm.ExcludesTail o := by
  rintro ⟨iv, hset, hranges⟩
  obtain ⟨iv', i, hset', -, hafter, hin, htaken⟩ :=
    setAnalyseRangeInterval_end hsent hstart hend hsome
  rw [hset] at hset'
  cases hset'
  rw [hranges] at htaken
  -- the range at `rit.base()` is taken, but the filter drops it
  have hnext : rm.ranges.entries[i + 1] ∈ rm.ranges.entries.take (i + 2) := by
    rw [List.mem_take_iff_getElem]
    exact ⟨i + 1, by omega, rfl⟩
  rw [← Except.ok.inj htaken] at hnext
  have hleft := of_decide_eq_true (List.mem_filter.mp hnext).2
  exact hafter (i + 1) (Nat.lt_succ_self i)
    ⟨rm.ranges.entries[i + 1], List.getElem?_eq_getElem hin, hleft⟩

/-- The first send times do not decrease along the map. -/
def SentInOrder (rm : RangeManager) : Prop :=
  rm.ranges.entries.Pairwise fun d e => e.2.firstSend.before d.2.firstSend = false

/-- When the ranges were sent in order, exactly one range too many is analysed. -/
theorem setAnalyseRangeInterval_one_more (hsent : rm.AllSent) (horder : rm.SentInOrder)
    (hstart : o.analyseStart = 0) (hend : 1 ≤ o.analyseEnd)
    (hsome : ∃ i, rm.SentBeforeLast o.analyseEnd i) :
    ∃ iv next, rm.setAnalyseRangeInterval o = .ok iv ∧
      rm.analysedRanges iv = .ok
        ((rm.ranges.entries.filter fun e => decide (o.analyseEnd ≤ rm.secsLeft e.2)) ++
          [next]) := by
  obtain ⟨iv, i, hset, ⟨e, he, hleft⟩, hafter, hin, htaken⟩ :=
    setAnalyseRangeInterval_end hsent hstart hend hsome
  obtain ⟨hi, rfl⟩ := List.getElem?_eq_some_iff.mp he
  refine ⟨iv, rm.ranges.entries[i + 1], hset, ?_⟩
  have hfront : (rm.ranges.entries.take (i + 1)).filter
      (fun e => decide (o.analyseEnd ≤ rm.secsLeft e.2)) = rm.ranges.entries.take (i + 1) := by
    rw [List.filter_eq_self]
    intro d hd
    obtain ⟨j, hj, rfl⟩ := List.mem_take_iff_getElem.mp hd
    apply decide_eq_true
    -- a range sent no later leaves at least as many seconds
    rcases Nat.lt_or_ge j i with hlt | hge
    · have hbefore := List.pairwise_iff_getElem.mp horder j i (by omega) hi hlt
      exact hleft.trans (Timeval.tvSec_sub_le rm.lastSend hbefore)
    · have hji : j = i := by omega
      subst hji
      exact hleft
  have hback : (rm.ranges.entries.drop (i + 1)).filter
      (fun e => decide (o.analyseEnd ≤ rm.secsLeft e.2)) = [] := by
    rw [List.filter_eq_nil_iff]
    intro d hd hleft'
    obtain ⟨j, hj, rfl⟩ := List.mem_drop_iff_getElem.mp hd
    exact hafter (i + 1 + j) (by omega)
      ⟨_, List.getElem?_eq_getElem _, of_decide_eq_true hleft'⟩
  have hfilter : rm.ranges.entries.filter (fun e => decide (o.analyseEnd ≤ rm.secsLeft e.2)) =
      rm.ranges.entries.take (i + 1) := by
    conv_lhs => rw [← List.take_append_drop (i + 1) rm.ranges.entries, List.filter_append, hfront,
      hback, List.append_nil]
  rw [htaken, hfilter, List.take_succ_eq_append_getElem hin]

theorem setAnalyseRangeInterval_keeps_tail_four :
    ∃ rm, Run.run insertSentRange (new 0) (tensAt [0, 5, 6, 8]) = .ok rm ∧
      ¬rm.ExcludesTail ⟨0, 2, 0, .inr rfl⟩ := by
  have hrun : ∃ rm, Run.run insertSentRange (new 0) (tensAt [0, 5, 6, 8]) = .ok rm ∧
      decide (rm.AllSent ∧ rm.SentBeforeLast 2 2) = true :=
    Run.exists_of_any_toOption (by decide +kernel)
  obtain ⟨rm, hrm, hok⟩ := hrun
  obtain ⟨hsent, hbefore⟩ := of_decide_eq_true hok
  exact ⟨rm, hrm, setAnalyseRangeInterval_keeps_tail hsent rfl (by decide) ⟨2, hbefore⟩⟩

/-- Packets sent at 0, 5, 6 and 8 seconds, with `--analyse-end=2`: the last one is analysed. -/
theorem setAnalyseRangeInterval_takes_last :
    ∃ rm, Run.run insertSentRange (new 0) (tensAt [0, 5, 6, 8]) = .ok rm ∧
      ∃ iv, rm.setAnalyseRangeInterval ⟨0, 2, 0, .inr rfl⟩ = .ok iv ∧
        ∃ l, rm.analysedRanges iv = .ok l ∧ l.map Prod.fst = [0, 10, 20, 30] ∧
          (rm.ranges.entries.filter fun e => decide (2 ≤ rm.secsLeft e.2)).map Prod.fst =
            [0, 10, 20] := by
  have hrun : ∃ rm, Run.run insertSentRange (new 0) (tensAt [0, 5, 6, 8]) = .ok rm ∧
      (rm.setAnalyseRangeInterval ⟨0, 2, 0, .inr rfl⟩).toOption.any (fun iv : AnalyseRange =>
        (rm.analysedRanges iv).toOption.any fun l : List Entry =>
          decide (l.map Prod.fst = [0, 10, 20, 30] ∧
            (rm.ranges.entries.filter fun e => decide (2 ≤ rm.secsLeft e.2)).map Prod.fst =
              [0, 10, 20])) = true :=
    Run.exists_of_any_toOption (by decide +kernel)
  obtain ⟨rm, hrm, hset⟩ := hrun
  obtain ⟨iv, hiv, hranges⟩ := Run.exists_of_any_toOption hset
  obtain ⟨l, hl, hok⟩ := Run.exists_of_any_toOption hranges
  exact ⟨rm, hrm, iv, hiv, l, hl, of_decide_eq_true hok⟩

end Tail

end RangeManager

end AnalyseTCP
