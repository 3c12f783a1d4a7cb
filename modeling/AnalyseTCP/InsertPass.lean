import AnalyseTCP.RangeMap
import AnalyseTCP.Lib.Run

/-!
# One pass of `insertByteRange`

`Pass` lists what one pass through the body can do to the entries of a well-formed, separated map:
a stretch `old` of the entries becomes `new`, and the rest of the segment, if any, is inserted by
the next pass.  Everything later is proved from these cases, not from the code.
-/

namespace AnalyseTCP

namespace RangeManager

def Outcome.rm : Outcome → RangeManager
  | .done rm _ => rm
  | .again rm _ => rm

/-- Where the next pass starts. -/
def Outcome.next : Outcome → Option ℕ
  | .done _ _ => none
  | .again _ s => some s

/-! ## The ranges a pass makes -/

/-- The range `insertNew` makes. -/
def freshRange (seg : DataSeg) (s e : ℕ) : ByteRange :=
  finSet seg (recordSent seg (thisIsRdbData seg s) (if seg.isRdb then .none else .pkt)
    { ByteRange.blank s e with
      byteCount := e - s
      originalPayloadSize := seg.payloadSize
      originalPacketIsRdb := seg.isRdb })

/-- What `insertOnEmpty` makes of a range without bytes. -/
def reusedRange (seg : DataSeg) (s c : ℕ) (r : ByteRange) : ByteRange :=
  payloadSet (recordSent seg (thisIsRdbData seg s) .pkt (r.head c))

/-- What `insertWithin` makes of a range that ends with the segment. -/
def wholeRange (itype : InsertType) (seg : DataSeg) (level s : ℕ) (r : ByteRange) : ByteRange :=
  let r := recordFound seg level (thisIsRdbData seg s) itype r
  if itype = .sent then synIncrease seg r else r

/-! ## Recording a packet keeps the endpoints -/

section Endpoints

variable (itype : InsertType) (seg : DataSeg) (level : ℕ) (rdb : Bool) (r : ByteRange)

section Blind

variable {α : Type} {f : ByteRange → α}

theorem finSet_blind (hf : ∀ r c, f { r with fin := c } = f r) : f (finSet seg r) = f r := by
  unfold finSet
  split
  · exact hf r _
  · rfl

theorem finIncrease_blind (hf : ∀ r c, f { r with fin := c } = f r) :
    f (finIncrease seg r) = f r := by
  unfold finIncrease
  split
  · exact hf r _
  · rfl

theorem synIncrease_blind (hf : ∀ r c, f { r with syn := c } = f r) :
    f (synIncrease seg r) = f r := by
  unfold synIncrease
  split
  · exact hf r _
  · rfl

/-- `increaseReceived` but for what only the first copy writes. -/
def receivedCounts (tstampTcp : ℕ) (r : ByteRange) : ByteRange :=
  { r with
    dataReceivedCount := r.dataReceivedCount + 1
    lostTstampsTcp := r.lostTstampsTcp.eraseP fun p => p.1 == tstampTcp }

theorem increaseReceived_blind
    (hf : ∀ (r : ByteRange) b n tv,
      f { r with appLayerLatencyTstamp := b, receivedTstampTcp := n, receivedTstampPcap := tv } =
        f r) (tstampTcp : ℕ) (tstampPcap : Timeval) (inSequence : Bool) :
    f (r.increaseReceived tstampTcp tstampPcap inSequence) = f (receivedCounts tstampTcp r) := by
  unfold ByteRange.increaseReceived
  dsimp only
  split
  · exact hf (receivedCounts tstampTcp r) _ _ _
  · rfl

/-- `recordRecv` but for what only the first copy writes. -/
def recordRecvCounts (seg : DataSeg) (level : ℕ) (r : ByteRange) : ByteRange :=
  { receivedCounts seg.tstampTcp r with
    packetReceivedCount := r.packetReceivedCount + if level = 0 then 1 else 0 }

theorem recordRecv_blind
    (hf : ∀ (r : ByteRange) b n tv,
      f { r with appLayerLatencyTstamp := b, receivedTstampTcp := n, receivedTstampPcap := tv } =
        f r) : f (recordRecv seg level r) = f (recordRecvCounts seg level r) := by
  by_cases hlevel : level = 0
  · unfold recordRecv recordRecvCounts
    dsimp only
    rw [if_pos hlevel, if_pos hlevel]
    exact increaseReceived_blind r
      (f := fun r => f { r with packetReceivedCount := r.packetReceivedCount + 1 })
      (fun r _ _ _ => hf { r with packetReceivedCount := r.packetReceivedCount + 1 } _ _ _) _ _ _
  · unfold recordRecv recordRecvCounts
    dsimp only
    rw [if_neg hlevel, if_neg hlevel]
    exact increaseReceived_blind r hf _ _ _

end Blind

@[simp] theorem finSet_startSeq : (finSet seg r).startSeq = r.startSeq :=
  finSet_blind seg r fun _ _ => rfl
@[simp] theorem finSet_endSeq : (finSet seg r).endSeq = r.endSeq :=
  finSet_blind seg r fun _ _ => rfl
@[simp] theorem finSet_byteCount : (finSet seg r).byteCount = r.byteCount :=
  finSet_blind seg r fun _ _ => rfl

theorem finSet_head (c : ℕ) : (finSet seg r).head c = finSet seg (r.head c) := by
  unfold finSet; split <;> rfl

theorem finSet_tail (c : ℕ) : (finSet seg r).tail c = r.tail c :=
  finSet_blind seg r (f := fun r => r.tail c) fun _ _ => rfl

theorem finSet_wf {r : ByteRange} (h : r.Wf) : (finSet seg r).Wf :=
  h.congr (finSet_startSeq seg r) (finSet_endSeq seg r) (finSet_byteCount seg r)

@[simp] theorem recordRecv_startSeq : (recordRecv seg level r).startSeq = r.startSeq :=
  recordRecv_blind seg level r fun _ _ _ _ => rfl
@[simp] theorem recordRecv_endSeq : (recordRecv seg level r).endSeq = r.endSeq :=
  recordRecv_blind seg level r fun _ _ _ _ => rfl
@[simp] theorem recordRecv_byteCount : (recordRecv seg level r).byteCount = r.byteCount :=
  recordRecv_blind seg level r fun _ _ _ _ => rfl

/-- The type under which the first pass charges a packet to a range that starts with it. -/
def foundType (seg : DataSeg) (level : ℕ) : SentType :=
  if level = 0 then (if seg.retrans then .rtr else .pkt) else .none

/-- `recordSentFound` up to the FIN count. -/
def recordSentCounts (r : ByteRange) : ByteRange :=
  { recordSent seg rdb (foundType seg level) r with
    dataRetransCount := r.dataRetransCount + seg.retrans.toNat
    rdbCount := r.rdbCount + seg.isRdb.toNat }

theorem recordSentFound_blind {α : Type} {f : ByteRange → α}
    (hf : ∀ r c, f { r with fin := c } = f r) :
    f (recordSentFound seg level rdb r) = f (recordSentCounts seg level rdb r) := by
  change f (recordSentCounts seg level rdb (if level = 0 then finIncrease seg r else r)) = _
  split
  · exact finIncrease_blind seg r (f := fun r => f (recordSentCounts seg level rdb r))
      fun r c => hf (recordSentCounts seg level rdb r) c
  · rfl

@[simp] theorem recordSplit_startSeq :
    (recordSplit seg level rdb itype r).startSeq = r.startSeq := by
  cases itype
  · rfl
  · exact recordRecv_startSeq seg level r
  · rfl

@[simp] theorem recordSplit_endSeq :
    (recordSplit seg level rdb itype r).endSeq = r.endSeq := by
  cases itype
  · rfl
  · exact recordRecv_endSeq seg level r
  · rfl

@[simp] theorem recordSplit_byteCount :
    (recordSplit seg level rdb itype r).byteCount = r.byteCount := by
  cases itype
  · rfl
  · exact recordRecv_byteCount seg level r
  · rfl

@[simp] theorem recordFound_startSeq :
    (recordFound seg level rdb itype r).startSeq = r.startSeq := by
  cases itype
  · exact recordSentFound_blind seg level rdb r fun _ _ => rfl
  · exact recordRecv_startSeq seg level r
  · rfl

@[simp] theorem recordFound_endSeq :
    (recordFound seg level rdb itype r).endSeq = r.endSeq := by
  cases itype
  · exact recordSentFound_blind seg level rdb r fun _ _ => rfl
  · exact recordRecv_endSeq seg level r
  · rfl

@[simp] theorem recordFound_byteCount :
    (recordFound seg level rdb itype r).byteCount = r.byteCount := by
  cases itype
  · exact recordSentFound_blind seg level rdb r fun _ _ => rfl
  · exact recordRecv_byteCount seg level r
  · rfl

end Endpoints

/-! ## The cases -/

inductive Pass (lastSeq : ℕ) (itype : InsertType) (seg : DataSeg) (level s e : ℕ)
    (pre post : List Entry) : List Entry → List Entry → Option ℕ → Prop
  /-- sent data that no range holds -/
  | fresh (hitype : itype = .sent) (hpre : ∀ en ∈ pre, en.1 < s) (hpost : ∀ en ∈ post, s < en.1)
      (hgap : s < lastSeq → ∀ en ∈ pre ++ post, ¬en.2.Holds s) (hsize : e - s < 2 ^ 16 - 1) :
      Pass lastSeq itype seg level s e pre post [] [(s, freshRange seg s e)] none
  /-- received data that no range holds -/
  | missing (hitype : itype = .recv) (hpre : ∀ en ∈ pre, en.1 < s)
      (hpost : ∀ en ∈ post, s < en.1) (hgap : s < lastSeq → ∀ en ∈ pre ++ post, ¬en.2.Holds s) :
      Pass lastSeq itype seg level s e pre post [] [] none
  /-- the segment is exactly a range -/
  | whole (r : ByteRange) (hend : r.endSeq = e) :
      Pass lastSeq itype seg level s e pre post [(s, r)] [(s, wholeRange itype seg level s r)] none
  /-- the segment is the front of a range -/
  | front (r : ByteRange) (hend : e < r.endSeq) :
      Pass lastSeq itype seg level s e pre post [(s, r)]
        [(s, recordFound seg level (thisIsRdbData seg s) itype (r.head e)), (e, r.tail e)] none
  /-- the segment starts with a range and reaches past it -/
  | span (r : ByteRange) (hbytes : s < r.endSeq) (hend : r.endSeq < e)
      (hlevel : level ≤ recursionLevel) :
      Pass lastSeq itype seg level s e pre post [(s, r)]
        [(s, recordFound seg level (thisIsRdbData seg s) itype r)] (some r.endSeq)
  /-- the segment starts on a range without bytes, which takes the data up to the next range -/
  | reuse (r : ByteRange) (c : ℕ) (hitype : itype = .sent) (hempty : r.endSeq = s) (hlo : s < c)
      (hhi : c ≤ e) (hpost : ∀ en ∈ post, c ≤ en.1) (hnext : c < e → ∃ en ∈ post, en.1 = c)
      (hsize : c - s < 2 ^ 16 - 1) :
      Pass lastSeq itype seg level s e pre post [(s, r)] [(s, reusedRange seg s c r)]
        (if c < e then some c else none)
  /-- the segment is the back of a range -/
  | back (key : ℕ) (r : ByteRange) (hkey : key < s) (hlo : s < r.endSeq) (hend : r.endSeq = e) :
      Pass lastSeq itype seg level s e pre post [(key, r)]
        [(key, r.head s),
          (s, recordSplit seg level (thisIsRdbData seg s) itype (finSet seg (r.tail s)))] none
  /-- the segment lies inside a range -/
  | middle (key : ℕ) (r : ByteRange) (hkey : key < s) (hend : e < r.endSeq) :
      Pass lastSeq itype seg level s e pre post [(key, r)]
        [(key, r.head s),
          (s, recordSplit seg level (thisIsRdbData seg s) itype
            (finSet seg ((r.tail s).head e))),
          (e, (r.tail s).tail e)] none
  /-- the segment starts inside a range and reaches past it -/
  | beyond (key : ℕ) (r : ByteRange) (hkey : key < s) (hlo : s < r.endSeq) (hend : r.endSeq < e) :
      Pass lastSeq itype seg level s e pre post [(key, r)]
        [(key, r.head s), (s, recordSplit seg level (thisIsRdbData seg s) itype (r.tail s))]
        (some r.endSeq)

/-- `rm'` differs from `rm` in the ranges only. -/
def OnlyRanges (rm rm' : RangeManager) : Prop := rm' = { rm with ranges := rm'.ranges }

theorem OnlyRanges.lastSeq {rm rm' : RangeManager} (h : OnlyRanges rm rm') :
    rm'.lastSeq = rm.lastSeq := by rw [h]

theorem OnlyRanges.trans {rm₁ rm₂ rm₃ : RangeManager} (h₁ : OnlyRanges rm₁ rm₂)
    (h₂ : OnlyRanges rm₂ rm₃) : OnlyRanges rm₁ rm₃ := by
  unfold OnlyRanges at *
  rw [h₁] at h₂
  exact h₂

/-- One pass from `rm` ends in `out`. -/
def Passes (rm : RangeManager) (itype : InsertType) (seg : DataSeg) (level s e : ℕ)
    (out : Outcome) : Prop :=
  ∃ pre old new post,
    rm.ranges.entries = pre ++ old ++ post ∧
    OnlyRanges rm out.rm ∧
    out.rm.ranges.entries = pre ++ new ++ post ∧
    Pass rm.lastSeq itype seg level s e pre post old new out.next

section

variable {rm : RangeManager} {itype : InsertType} {seg : DataSeg} {level s e : ℕ} {out : Outcome}

/-! ## Data that starts at no existing range -/

theorem mem_entries_of_mem_searchWindow {en : Entry} (h : en ∈ rm.searchWindow s e) :
    en ∈ rm.ranges.entries := by
  rw [← rm.ranges.below_append_atLeast s]
  have hmem := (List.takeWhile_prefix _).subset h
  rcases List.mem_append.mp hmem with hlast | hge
  · exact List.mem_append_left _ (List.mem_of_getLast? (Option.mem_toList.mp hlast))
  · exact List.mem_append_right _ hge

theorem key_lt_of_holds (hwf : WfEntries rm.ranges.entries) (hfree : rm.ranges.find? s = none)
    {key : ℕ} {r : ByteRange} (hmem : (key, r) ∈ rm.ranges.entries) (hhold : r.Holds s) :
    key < s := by
  have hstart : key = r.startSeq := (hwf _ hmem).1
  have hne : key ≠ s := OrdMap.find?_eq_none_iff.mp hfree _ hmem
  have hle : r.startSeq ≤ s := hhold.1
  omega

/-- The scan finds the range that contains `s`, if there is one. -/
theorem find?_searchWindow_of_holds (hwf : WfEntries rm.ranges.entries)
    (hsep : Separated rm.ranges.entries) (hfree : rm.ranges.find? s = none) (hlt : s < e)
    {en : Entry} (hen : en ∈ rm.ranges.entries) (hhold : en.2.Holds s) :
    ((rm.searchWindow s e).find? fun e =>
      decide (e.2.startSeq ≤ s) && decide (s < e.2.endSeq)) = some en := by
  obtain ⟨key, r⟩ := en
  obtain ⟨pre, post, hcut⟩ := List.append_of_mem hen
  have hks := key_lt_of_holds hwf hfree hen hhold
  have hbelow := (below_of_holds hwf hsep hcut hks hhold).1
  have hke : key ≤ e := by omega
  unfold searchWindow
  rw [hbelow]
  simp [hke, hhold.1, hhold.2]

theorem not_holds_of_find?_searchWindow (hwf : WfEntries rm.ranges.entries)
    (hsep : Separated rm.ranges.entries) (hfree : rm.ranges.find? s = none) (hlt : s < e)
    (hfind : ((rm.searchWindow s e).find? fun e =>
      decide (e.2.startSeq ≤ s) && decide (s < e.2.endSeq)) = none) :
    ∀ en ∈ rm.ranges.entries, ¬en.2.Holds s := by
  intro en hen hhold
  rw [find?_searchWindow_of_holds hwf hsep hfree hlt hen hhold] at hfind
  cases hfind

theorem newDataRange_eq (hlt : s < e) (hsize : e - s < 2 ^ 16 - 1) :
    newDataRange s e seg =
      if seg.syn then .error .synWithPayload else .ok (freshRange seg s e) := by
  unfold newDataRange
  rw [ByteRange.new_eq s e hlt.le hsize]
  rfl

theorem insertNew_passes (hfree : rm.ranges.find? s = none) (hlt : s < e)
    (hsize : itype = .sent → e - s < 2 ^ 16 - 1) (hitype : itype ≠ .sojourn)
    (hgap : s < rm.lastSeq → ∀ en ∈ rm.ranges.entries, ¬en.2.Holds s)
    (h : rm.insertNew s e itype seg = .ok out) : Passes rm itype seg level s e out := by
  have hsplit := rm.ranges.below_append_atLeast s
  have hpre : ∀ en ∈ rm.ranges.below s, en.1 < s := fun en hen => OrdMap.lt_of_mem_below hen
  have hpost := OrdMap.lt_of_mem_atLeast hfree
  rw [← hsplit] at hgap
  cases itype with
  | sojourn => exact absurd rfl hitype
  | recv =>
      obtain rfl : .done rm true = out := Except.ok.inj h
      refine ⟨_, [], [], _, ?_, rfl, ?_, .missing rfl hpre hpost hgap⟩
      · simpa using hsplit.symm
      · rw [List.append_nil]
        exact hsplit.symm
  | sent =>
      obtain ⟨r, hr, h⟩ := Run.exists_of_bind_ok h
      rw [newDataRange_eq hlt (hsize rfl)] at hr
      split at hr
      · cases hr
      · obtain rfl := Except.ok.inj hr
        obtain rfl := Except.ok.inj h
        refine ⟨_, [], [(s, freshRange seg s e)], _, ?_, rfl, ?_,
          .fresh rfl hpre hpost hgap (hsize rfl)⟩
        · simpa using hsplit.symm
        · rw [List.append_assoc]
          exact OrdMap.entries_insert_of_find?_eq_none hfree (freshRange seg s e)

/-! ### Splitting a range -/

/-- The entry at `key` cut in two: its head stays, the other piece follows it. -/
theorem entries_cut {m : OrdMap ℕ ByteRange} {pre post : List Entry} {key k : ℕ} {r : ByteRange}
    (hcut : m.entries = pre ++ (key, r) :: post) (hkey : key < k) (hpost : ∀ en ∈ post, k < en.1)
    (v w : ByteRange) :
    ((m.modify key fun _ => v).insert k w).entries = pre ++ [(key, v), (k, w)] ++ post := by
  have hmod := OrdMap.entries_modify_of_cut hcut fun _ => v
  have hcut' : (m.modify key fun _ => v).entries = (pre ++ [(key, v)]) ++ post := by
    simpa using hmod
  have hpre : ∀ en ∈ pre ++ [(key, v)], en.1 < k := by
    intro en hen
    rcases List.mem_append.mp hen with hen | hen
    · exact (OrdMap.lt_of_mem_pre hcut hen).trans hkey
    · obtain rfl := List.mem_singleton.mp hen
      exact hkey
  rw [OrdMap.entries_insert_of_cut hcut' hpre hpost w]
  simp

theorem entries_insert_between {m : OrdMap ℕ ByteRange} {pre post : List Entry} {key k k' : ℕ}
    {v w : ByteRange} (hcut : m.entries = pre ++ [(key, v), (k', w)] ++ post) (hlo : key < k)
    (hhi : k < k') (u : ByteRange) :
    (m.insert k u).entries = pre ++ [(key, v), (k, u), (k', w)] ++ post := by
  have hcut₁ : m.entries = pre ++ (key, v) :: ((k', w) :: post) := by simpa using hcut
  have hcut₂ : m.entries = (pre ++ [(key, v)]) ++ (k', w) :: post := by simpa using hcut
  have hpre : ∀ en ∈ pre ++ [(key, v)], en.1 < k := by
    intro en hen
    rcases List.mem_append.mp hen with hen | hen
    · exact (OrdMap.lt_of_mem_pre hcut₁ hen).trans hlo
    · obtain rfl := List.mem_singleton.mp hen
      exact hlo
  have hpost : ∀ en ∈ (k', w) :: post, k < en.1 := by
    intro en hen
    rcases List.mem_cons.mp hen with rfl | hen
    · exact hhi
    · exact hhi.trans (OrdMap.lt_of_mem_post hcut₂ hen)
  rw [OrdMap.entries_insert_of_cut hcut₂ hpre hpost u]
  simp

/-- In a separated map the entries after a range start at or above its end. -/
theorem le_of_mem_post {l pre post : List Entry} {key : ℕ} {r : ByteRange} (hwf : WfEntries l)
    (hsep : Separated l) (hcut : l = pre ++ (key, r) :: post) :
    ∀ en ∈ post, r.endSeq ≤ en.1 := by
  subst hcut
  intro en hen
  rw [(hwf en (by simp [hen])).1]
  exact (separated_cons.mp (separated_append.mp hsep).2.1).1 en hen

section Split

variable {key : ℕ} {r : ByteRange}

theorem splitExisting_back (hwf : r.Wf) (hlo : r.startSeq < s) (hhi : s < r.endSeq)
    (hend : e = r.endSeq) :
    rm.splitExisting s e itype seg level key r =
      .ok (.done { rm with ranges :=
        ((rm.ranges.modify key fun _ => r.head s).insert s
          (recordSplit seg level (thisIsRdbData seg s) itype (finSet seg (r.tail s)))) } true) := by
  have hboth : ¬(s = r.startSeq ∧ e = r.endSeq) := by omega
  unfold splitExisting
  rw [if_neg hboth, if_neg hlo.ne', if_pos hend, ByteRange.splitEnd_eq hwf hlo hhi, Run.ok_bind]
  simp only [recordSplit_startSeq, finSet_startSeq, ByteRange.tail_startSeq]
  rfl

theorem splitEnd_finSet_tail (hwf : r.Wf) (hlo : r.startSeq < s) (hlt : s < e)
    (hin : e < r.endSeq) :
    (finSet seg (r.tail s)).splitEnd e (r.tail s).endSeq =
      .ok (finSet seg ((r.tail s).head e), (r.tail s).tail e) := by
  have hwf' : (finSet seg (r.tail s)).Wf := finSet_wf seg (hwf.tail hlo.le (hlt.trans hin).le)
  have hsplit := ByteRange.splitEnd_eq hwf' (c := e) (by simpa using hlt) (by simpa using hin)
  rw [finSet_endSeq, finSet_head, finSet_tail] at hsplit
  exact hsplit

theorem splitExisting_middle (hwf : r.Wf) (hlo : r.startSeq < s) (hlt : s < e)
    (hin : e < r.endSeq) :
    rm.splitExisting s e itype seg level key r =
      .ok (.done { rm with ranges :=
        (((rm.ranges.modify key fun _ => r.head s).insert e ((r.tail s).tail e)).insert s
          (recordSplit seg level (thisIsRdbData seg s) itype
            (finSet seg ((r.tail s).head e)))) } true) := by
  have hboth : ¬(s = r.startSeq ∧ e = r.endSeq) := by omega
  unfold splitExisting
  rw [if_neg hboth, if_neg hlo.ne', if_neg hin.ne, if_pos hin,
    ByteRange.splitEnd_eq hwf hlo (hlt.trans hin), Run.ok_bind]
  dsimp only
  rw [splitEnd_finSet_tail hwf hlo hlt hin, Run.ok_bind]
  simp only [recordSplit_startSeq, finSet_startSeq, ByteRange.head_startSeq,
    ByteRange.tail_startSeq]
  rfl

theorem splitExisting_beyond (hwf : r.Wf) (hlo : r.startSeq < s) (hhi : s < r.endSeq)
    (hout : r.endSeq < e) :
    rm.splitExisting s e itype seg level key r =
      .ok (.again { rm with ranges :=
        ((rm.ranges.modify key fun _ => r.head s).insert s
          (recordSplit seg level (thisIsRdbData seg s) itype (r.tail s))) } r.endSeq) := by
  have hboth : ¬(s = r.startSeq ∧ e = r.endSeq) := by omega
  unfold splitExisting
  rw [if_neg hboth, if_neg hlo.ne', if_neg hout.ne', if_neg hout.not_gt,
    ByteRange.splitEnd_eq hwf hlo hhi, Run.ok_bind]
  simp only [recordSplit_startSeq, recordSplit_endSeq, ByteRange.tail_startSeq,
    ByteRange.tail_endSeq]
  rfl

/-- A segment that starts strictly inside a range always splits it. -/
theorem splitExisting_passes (itype : InsertType) (seg : DataSeg) (level : ℕ)
    (hwf : WfEntries rm.ranges.entries)
    (hsep : Separated rm.ranges.entries) (hmem : (key, r) ∈ rm.ranges.entries) (hkey : key < s)
    (hhi : s < r.endSeq) (hlt : s < e) :
    ∃ out, rm.splitExisting s e itype seg level key r = .ok out ∧
      Passes rm itype seg level s e out := by
  obtain ⟨pre, post, hcut⟩ := List.append_of_mem hmem
  have hr : key = r.startSeq ∧ r.Wf := hwf _ hmem
  have hlo : r.startSeq < s := by omega
  have hpost := le_of_mem_post hwf hsep hcut
  have hpost' : ∀ en ∈ post, s < en.1 := fun en hen => hhi.trans_le (hpost en hen)
  have hcut' : rm.ranges.entries = pre ++ [(key, r)] ++ post := by simpa using hcut
  rcases lt_trichotomy e r.endSeq with hin | hend | hout
  · refine ⟨_, splitExisting_middle hr.2 hlo hlt hin, pre, _, _, post, hcut', rfl, ?_,
      .middle key r hkey hin⟩
    have hlast := entries_cut hcut (hkey.trans hlt) (fun en hen => hin.trans_le (hpost en hen))
      (r.head s) ((r.tail s).tail e)
    exact entries_insert_between hlast hkey hlt _
  · exact ⟨_, splitExisting_back hr.2 hlo hhi hend, pre, _, _, post, hcut', rfl,
      entries_cut hcut hkey hpost' _ _, .back key r hkey hhi hend.symm⟩
  · exact ⟨_, splitExisting_beyond hr.2 hlo hhi hout, pre, _, _, post, hcut', rfl,
      entries_cut hcut hkey hpost' _ _, .beyond key r hkey hhi hout⟩

end Split

theorem insertNotFound_passes (hwf : WfEntries rm.ranges.entries)
    (hsep : Separated rm.ranges.entries) (hfree : rm.ranges.find? s = none) (hlt : s < e)
    (hsize : itype = .sent → e - s < 2 ^ 16 - 1) (hitype : itype ≠ .sojourn)
    (h : rm.insertNotFound s e itype seg level = .ok out) : Passes rm itype seg level s e out := by
  unfold insertNotFound at h
  split at h
  · next hlast =>
      split at h
      · cases h
      · next w ws hw =>
          rw [← hw] at h
          split at h
          · next key r hfind =>
              have hmem := mem_entries_of_mem_searchWindow (List.mem_of_find?_eq_some hfind)
              have hhold : r.Holds s := by
                simpa [ByteRange.Holds] using List.find?_some hfind
              have hkey := key_lt_of_holds hwf hfree hmem hhold
              obtain ⟨out', hsplit, hpass⟩ :=
                splitExisting_passes itype seg level hwf hsep hmem hkey hhold.2 hlt
              rw [hsplit] at h
              exact Except.ok.inj h ▸ hpass
          · next hfind =>
              have hgap := not_holds_of_find?_searchWindow hwf hsep hfree hlt hfind
              exact insertNew_passes hfree hlt hsize hitype (fun _ => hgap) h
  · next hlast =>
      exact insertNew_passes hfree hlt hsize hitype (fun hlt' => absurd hlt' hlast) h

/-! ## Data that starts where an existing range starts -/

section Found

variable {r : ByteRange}

theorem insertFound_whole (hitype : itype ≠ .sojourn) (hend : r.endSeq = e) :
    rm.insertFound s e itype seg level r =
      .ok (.done { rm with ranges := rm.ranges.modify s fun _ => wholeRange itype seg level s r }
        true) := by
  have hack : ¬(r.endSeq ≠ e ∧ itype = .recv ∧ e = add32 rm.firstSeq 1) := fun h => h.1 hend
  have hout : ¬r.endSeq < e := by omega
  unfold insertFound
  rw [if_neg hack, if_neg hout]
  cases itype with
  | sojourn => exact absurd rfl hitype
  | sent =>
      unfold insertWithin
      dsimp only
      rw [if_pos hend]
      rfl
  | recv =>
      unfold insertWithin
      dsimp only
      rw [if_pos hend]
      rfl

theorem insertFound_front (hitype : itype ≠ .sojourn)
    (hack : ¬(itype = .recv ∧ e = add32 rm.firstSeq 1)) (hwf : r.Wf) (hlo : r.startSeq < e)
    (hin : e < r.endSeq) :
    rm.insertFound s e itype seg level r =
      .ok (.done { rm with ranges :=
        ((rm.ranges.modify s fun _ =>
          recordFound seg level (thisIsRdbData seg s) itype (r.head e)).insert e (r.tail e)) }
        true) := by
  unfold insertFound
  rw [if_neg (fun h => hack h.2), if_neg hin.not_gt]
  cases itype with
  | sojourn => exact absurd rfl hitype
  | sent =>
      unfold insertWithin
      dsimp only
      rw [if_neg hin.ne', ByteRange.splitEnd_eq hwf hlo hin, Run.ok_bind]
      simp only [ByteRange.tail_startSeq]
      rfl
  | recv =>
      unfold insertWithin
      dsimp only
      rw [if_neg hin.ne', ByteRange.splitEnd_eq hwf hlo hin, Run.ok_bind]
      simp only [ByteRange.tail_startSeq]
      rfl

theorem insertFound_span_sent (hout : r.endSeq < e) (hbytes : r.byteCount ≠ 0) :
    rm.insertFound s e .sent seg level r =
      if recursionLevel < level then .error (.recurseLevel s e .sent)
      else .ok (.again { rm with ranges :=
        (rm.ranges.modify s fun _ => recordFound seg level (thisIsRdbData seg s) .sent r) }
        r.endSeq) := by
  unfold insertFound
  rw [if_neg (fun h => nomatch h.2.1), if_pos hout]
  unfold insertSpanning
  dsimp only
  rw [if_neg hbytes]
  rfl

theorem insertFound_span_recv (hack : e ≠ add32 rm.firstSeq 1) (hout : r.endSeq < e) :
    rm.insertFound s e .recv seg level r =
      if (recordRecv seg level r).receivedTstampTcp = 0 then .error .receivedTstamp
      else if recursionLevel < level then .error (.recurseLevel s e .recv)
      else .ok (.again { rm with ranges :=
        (rm.ranges.modify s fun _ => recordFound seg level (thisIsRdbData seg s) .recv r) }
        r.endSeq) := by
  unfold insertFound
  rw [if_neg (fun h => hack h.2.2), if_pos hout]
  rfl

/-- How far data reaches on a range without bytes at `s`. -/
def reuseEnd (m : OrdMap ℕ ByteRange) (s e : ℕ) : ℕ :=
  match m.next? s with
  | none => e
  | some (_, next) => min next.startSeq e

theorem reuseEmpty_eq {c : ℕ} (hlo : r.startSeq ≤ c) (hsize : c - r.startSeq < 2 ^ 16 - 1) :
    reuseEmpty s seg c r = .ok (recordSent seg (thisIsRdbData seg s) .pkt (r.head c)) := by
  unfold reuseEmpty
  rw [ByteRange.updateByteCount_endSeq r hlo hsize]
  rfl

theorem insertOnEmpty_eq (seg : DataSeg) {pre post : List Entry} (hwf : WfEntries rm.ranges.entries)
    (hcut : rm.ranges.entries = pre ++ (s, r) :: post) (hlt : s < e)
    (hsize : e - s < 2 ^ 16 - 1) (hempty : r.endSeq = s) :
    rm.insertOnEmpty s e seg r =
      .ok (if reuseEnd rm.ranges s e < e then
        .again { rm with ranges :=
          (rm.ranges.modify s fun _ => reusedRange seg s (reuseEnd rm.ranges s e) r) }
          (reuseEnd rm.ranges s e)
      else
        .done { rm with ranges :=
          (rm.ranges.modify s fun _ => reusedRange seg s (reuseEnd rm.ranges s e) r) } true) := by
  have hstart : s = r.startSeq := (hwf (s, r) (by simp [hcut])).1
  cases hnext : rm.ranges.next? s with
  | none =>
      have hc : reuseEnd rm.ranges s e = e := by rw [reuseEnd, hnext]
      unfold insertOnEmpty
      rw [hc, if_neg (lt_irrefl e), hnext]
      dsimp only
      rw [reuseEmpty_eq (by omega) (by omega)]
      rfl
  | some next =>
      have hc : reuseEnd rm.ranges s e = min next.2.startSeq e := by rw [reuseEnd, hnext]
      have hnext' := OrdMap.next?_of_cut hcut ▸ hnext
      have hmem : next ∈ post := List.mem_of_head? hnext'
      have hkey : s < next.1 := OrdMap.lt_of_mem_post hcut hmem
      have hnstart : next.1 = next.2.startSeq := (hwf next (by simp [hcut, hmem])).1
      -- the next range starts above `s`, where the range without data ends
      have hne : r.endSeq ≠ next.2.startSeq := by omega
      unfold insertOnEmpty
      rw [hc, hnext]
      dsimp only
      rw [if_pos hne, reuseEmpty_eq (by omega) (by omega)]
      rfl

theorem reuseEnd_bounds {pre post : List Entry} (hwf : WfEntries rm.ranges.entries)
    (hcut : rm.ranges.entries = pre ++ (s, r) :: post) (hlt : s < e) :
    s < reuseEnd rm.ranges s e ∧ reuseEnd rm.ranges s e ≤ e ∧
      (∀ en ∈ post, reuseEnd rm.ranges s e ≤ en.1) ∧
      (reuseEnd rm.ranges s e < e → ∃ en ∈ post, en.1 = reuseEnd rm.ranges s e) := by
  unfold reuseEnd
  rw [OrdMap.next?_of_cut hcut]
  cases post with
  | nil => simp [hlt]
  | cons next rest =>
      have hkey : s < next.1 := OrdMap.lt_of_mem_post hcut List.mem_cons_self
      have hstart : next.1 = next.2.startSeq := (hwf next (by simp [hcut])).1
      have hcut' : rm.ranges.entries = (pre ++ [(s, r)]) ++ next :: rest := by simpa using hcut
      refine ⟨?_, min_le_right _ _, ?_, ?_⟩
      · simp only [List.head?_cons]
        omega
      · intro en hen
        have hle : next.1 ≤ en.1 := by
          rcases List.mem_cons.mp hen with rfl | hen
          · exact le_rfl
          · exact (OrdMap.lt_of_mem_post hcut' hen).le
        simp only [List.head?_cons]
        omega
      · intro hce
        simp only [List.head?_cons] at hce
        refine ⟨next, List.mem_cons_self, ?_⟩
        simp only [List.head?_cons]
        omega

theorem insertFound_reuse {pre post : List Entry} (hwf : WfEntries rm.ranges.entries)
    (hcut : rm.ranges.entries = pre ++ (s, r) :: post) (hlt : s < e) (hempty : r.endSeq = s) :
    rm.insertFound s e .sent seg level r = rm.insertOnEmpty s e seg r := by
  have hr : s = r.startSeq ∧ r.Wf := hwf (s, r) (by simp [hcut])
  have hbytes : r.byteCount = 0 := by
    have := hr.2.size
    omega
  unfold insertFound
  rw [if_neg (fun h => nomatch h.2.1), if_pos (hempty ▸ hlt)]
  unfold insertSpanning
  dsimp only
  rw [if_pos hbytes]

theorem insertOnEmpty_passes (seg : DataSeg) (level : ℕ) {pre post : List Entry}
    (hwf : WfEntries rm.ranges.entries)
    (hcut : rm.ranges.entries = pre ++ (s, r) :: post) (hlt : s < e)
    (hsize : e - s < 2 ^ 16 - 1) (hempty : r.endSeq = s) :
    ∃ out, rm.insertOnEmpty s e seg r = .ok out ∧ Passes rm .sent seg level s e out := by
  have hcut' : rm.ranges.entries = pre ++ [(s, r)] ++ post := by simpa using hcut
  obtain ⟨hlo, hhi, hpost, hnext⟩ := reuseEnd_bounds hwf hcut hlt
  have heq := insertOnEmpty_eq seg hwf hcut hlt hsize hempty
  generalize reuseEnd rm.ranges s e = c at *
  have hmod : (rm.ranges.modify s fun _ => reusedRange seg s c r).entries =
      pre ++ [(s, reusedRange seg s c r)] ++ post := by
    simpa using OrdMap.entries_modify_of_cut hcut fun _ => reusedRange seg s c r
  have hpass : Pass rm.lastSeq .sent seg level s e pre post [(s, r)] [(s, reusedRange seg s c r)]
      (if c < e then some c else none) :=
    .reuse r c rfl hempty hlo hhi hpost hnext (by omega)
  refine ⟨_, heq, pre, _, [(s, reusedRange seg s c r)], post, hcut', ?_⟩
  by_cases hce : c < e
  · rw [if_pos hce] at hpass ⊢
    exact ⟨rfl, hmod, hpass⟩
  · rw [if_neg hce] at hpass ⊢
    exact ⟨rfl, hmod, hpass⟩

theorem insertFound_passes (hwf : WfEntries rm.ranges.entries) (hsep : Separated rm.ranges.entries)
    (hmem : (s, r) ∈ rm.ranges.entries) (hlt : s < e)
    (hsize : itype = .sent → e - s < 2 ^ 16 - 1)
    (hitype : itype ≠ .sojourn) (hrecv : itype = .recv → r.endSeq ≠ s)
    (h : rm.insertFound s e itype seg level r = .ok out) : Passes rm itype seg level s e out := by
  obtain ⟨pre, post, hcut⟩ := List.append_of_mem hmem
  have hr : s = r.startSeq ∧ r.Wf := hwf _ hmem
  have hle : r.startSeq ≤ r.endSeq := hr.2.le
  have hcut' : rm.ranges.entries = pre ++ [(s, r)] ++ post := by simpa using hcut
  have hmod : ∀ v, (rm.ranges.modify s fun _ => v).entries = pre ++ [(s, v)] ++ post := fun v => by
    simpa using OrdMap.entries_modify_of_cut hcut fun _ => v
  -- the data ends inside the range found at its start, with it, or behind it
  rcases lt_trichotomy e r.endSeq with hin | hend | hout
  · by_cases hack : itype = .recv ∧ e = add32 rm.firstSeq 1
    · unfold insertFound at h
      rw [if_pos ⟨hin.ne', hack⟩] at h
      cases h
    · rw [insertFound_front hitype hack hr.2 (by omega) hin] at h
      obtain rfl := Except.ok.inj h
      have hpost : ∀ en ∈ post, e < en.1 := fun en hen =>
        hin.trans_le (le_of_mem_post hwf hsep hcut en hen)
      exact ⟨pre, _, _, post, hcut', rfl, entries_cut hcut hlt hpost _ _, .front r hin⟩
  · rw [insertFound_whole hitype hend.symm] at h
    obtain rfl := Except.ok.inj h
    exact ⟨pre, _, _, post, hcut', rfl, hmod _, .whole r hend.symm⟩
  · cases itype with
    | sojourn => exact absurd rfl hitype
    | sent =>
        -- a range without data takes the bytes up to the next range
        by_cases hempty : r.endSeq = s
        · obtain ⟨out', hout', hpass⟩ :=
            insertOnEmpty_passes seg level hwf hcut hlt (hsize rfl) hempty
          rw [insertFound_reuse hwf hcut hlt hempty, hout'] at h
          exact Except.ok.inj h ▸ hpass
        · have hbytes : r.byteCount ≠ 0 := by
            have := hr.2.size
            omega
          rw [insertFound_span_sent hout hbytes] at h
          split at h
          · cases h
          · next hlevel =>
              obtain rfl := Except.ok.inj h
              exact ⟨pre, _, _, post, hcut', rfl, hmod _,
                .span r (by omega) hout (Nat.not_lt.mp hlevel)⟩
    | recv =>
        have hbytes := hrecv rfl
        -- the end that the code takes for the ACK of the SYN-ACK aborts before the recursion
        by_cases hack : e = add32 rm.firstSeq 1
        · unfold insertFound at h
          rw [if_pos ⟨hout.ne, rfl, hack⟩] at h
          cases h
        · rw [insertFound_span_recv hack hout] at h
          split at h
          · cases h
          · split at h
            · cases h
            · next hlevel =>
                obtain rfl := Except.ok.inj h
                exact ⟨pre, _, _, post, hcut', rfl, hmod _,
                  .span r (by omega) hout (Nat.not_lt.mp hlevel)⟩

end Found

/-! ## The whole pass -/

/-- Every pass over data that returns does one of the listed things. -/
theorem insertBody_passes (hwf : WfEntries rm.ranges.entries) (hsep : Separated rm.ranges.entries)
    (hlt : s < e) (hsize : itype = .sent → e - s < 2 ^ 16 - 1) (hitype : itype ≠ .sojourn)
    (hrecv : itype = .recv → ∀ en ∈ rm.ranges.entries, en.1 = s → en.2.endSeq ≠ s)
    (h : rm.insertBody s e itype seg level = .ok out) : Passes rm itype seg level s e out := by
  unfold insertBody at h
  rw [if_neg hlt.ne] at h
  split at h
  · next hfree => exact insertNotFound_passes hwf hsep hfree hlt hsize hitype h
  · next r hfind =>
      have hmem : (s, r) ∈ rm.ranges.entries := OrdMap.find?_eq_some_iff.mp hfind
      exact insertFound_passes hwf hsep hmem hlt hsize hitype (fun h => hrecv h _ hmem rfl) h

theorem insertNew_ok (hlt : s < e) (hsize : itype = .sent → e - s < 2 ^ 16 - 1)
    (hsyn : itype = .sent → seg.syn = false) :
    ∃ out, rm.insertNew s e itype seg = .ok out := by
  cases itype with
  | sent =>
      unfold insertNew
      dsimp only
      rw [newDataRange_eq hlt (hsize rfl), hsyn rfl, if_neg Bool.false_ne_true]
      exact ⟨_, rfl⟩
  | recv => exact ⟨_, rfl⟩
  | sojourn => exact ⟨_, rfl⟩

theorem insertNotFound_ok (hwf : WfEntries rm.ranges.entries)
    (hsep : Separated rm.ranges.entries) (hfree : rm.ranges.find? s = none) (hlt : s < e)
    (hsize : itype = .sent → e - s < 2 ^ 16 - 1) (hitype : itype ≠ .sojourn)
    (hsyn : itype = .sent → seg.syn = false)
    (hheld : s < rm.lastSeq → Held rm.ranges.entries s) :
    ∃ out, rm.insertNotFound s e itype seg level = .ok out := by
  unfold insertNotFound
  by_cases hlast : s < rm.lastSeq
  · rw [if_pos hlast]
    obtain ⟨en, hmem, hen⟩ := hheld hlast
    have hhold : en.2.Holds s := hen.resolve_left (OrdMap.find?_eq_none_iff.mp hfree en hmem)
    have hfind := find?_searchWindow_of_holds hwf hsep hfree hlt hmem hhold
    have hkey := key_lt_of_holds hwf hfree hmem hhold
    obtain ⟨out, hout, -⟩ := splitExisting_passes itype seg level hwf hsep hmem hkey
      hhold.2 hlt
    cases hw : rm.searchWindow s e with
    | nil =>
        rw [hw] at hfind
        cases hfind
    | cons w ws =>
        rw [hw] at hfind
        dsimp only
        rw [hfind]
        dsimp only
        rw [if_neg hitype]
        exact ⟨out, hout⟩
  · rw [if_neg hlast]
    exact insertNew_ok hlt hsize hsyn

theorem insertFound_ok {r : ByteRange} (hwf : WfEntries rm.ranges.entries)
    (hmem : (s, r) ∈ rm.ranges.entries) (hlt : s < e)
    (hsize : itype = .sent → e - s < 2 ^ 16 - 1)
    (hitype : itype ≠ .sojourn)
    (hlevel : r.endSeq < e → level ≤ recursionLevel)
    (hack : itype = .recv → e ≠ add32 rm.firstSeq 1)
    (hstamp : itype = .recv → (recordRecv seg level r).receivedTstampTcp ≠ 0) :
    ∃ out, rm.insertFound s e itype seg level r = .ok out := by
  obtain ⟨pre, post, hcut⟩ := List.append_of_mem hmem
  have hr : s = r.startSeq ∧ r.Wf := hwf _ hmem
  rcases lt_trichotomy e r.endSeq with hin | hend | hout
  · exact ⟨_, insertFound_front hitype (fun h => hack h.1 h.2) hr.2 (by omega) hin⟩
  · exact ⟨_, insertFound_whole hitype hend.symm⟩
  · cases itype with
    | sojourn => exact absurd rfl hitype
    | sent =>
        by_cases hempty : r.endSeq = s
        · rw [insertFound_reuse hwf hcut hlt hempty,
            insertOnEmpty_eq seg hwf hcut hlt (hsize rfl) hempty]
          exact ⟨_, rfl⟩
        · have hbytes : r.byteCount ≠ 0 := by
            have := hr.2.size
            have := hr.2.le
            omega
          rw [insertFound_span_sent hout hbytes, if_neg (Nat.not_lt.mpr (hlevel hout))]
          exact ⟨_, rfl⟩
    | recv =>
        rw [insertFound_span_recv (hack rfl) hout, if_neg (hstamp rfl),
          if_neg (Nat.not_lt.mpr (hlevel hout))]
        exact ⟨_, rfl⟩

/-- When a pass over data returns. -/
theorem insertBody_ok (hwf : WfEntries rm.ranges.entries) (hsep : Separated rm.ranges.entries)
    (hlt : s < e) (hsize : itype = .sent → e - s < 2 ^ 16 - 1) (hitype : itype ≠ .sojourn)
    (hsyn : itype = .sent → seg.syn = false)
    (hheld : s < rm.lastSeq → Held rm.ranges.entries s)
    (hlevel : ∀ en ∈ rm.ranges.entries, en.1 = s → en.2.endSeq < e → level ≤ recursionLevel)
    (hack : itype = .recv → e ≠ add32 rm.firstSeq 1)
    (hstamp : itype = .recv → ∀ en ∈ rm.ranges.entries, en.1 = s →
      (recordRecv seg level en.2).receivedTstampTcp ≠ 0) :
    ∃ out, rm.insertBody s e itype seg level = .ok out := by
  unfold insertBody
  rw [if_neg hlt.ne]
  cases hfind : rm.ranges.find? s with
  | none => exact insertNotFound_ok hwf hsep hfind hlt hsize hitype hsyn hheld
  | some r =>
      have hmem : (s, r) ∈ rm.ranges.entries := OrdMap.find?_eq_some_iff.mp hfind
      exact insertFound_ok hwf hmem hlt hsize hitype (hlevel _ hmem rfl) hack
        fun h => hstamp h _ hmem rfl

end

end RangeManager

end AnalyseTCP
