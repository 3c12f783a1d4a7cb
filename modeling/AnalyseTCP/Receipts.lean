import AnalyseTCP.Refinement

/-!
# Receiving, without the TCP timestamps

Where received data cuts ranges and what it counts depends on the shape of the map and on the
counters alone.  `receivePass` is one pass of `insertByteRange` over received data on what is left of
a range when its times are dropped; every pass of the program that returns is such a pass.  So two
runs over data that differs in its timestamps only agree on the ranges and the counts, if both
return.  Whether they do depends on the timestamps: `insertByteRange` asserts that a range the data
reaches past has one that is not zero.
-/

namespace AnalyseTCP

/-- What the receiver trace counts for a range. -/
structure Receipt where
  startSeq : ℕ
  endSeq : ℕ
  received : Counter 8
  packets : Counter 8
deriving DecidableEq, Repr

namespace Receipt

def record (level : ℕ) (f : Receipt) : Receipt :=
  { f with
    received := f.received + 1
    packets := if level = 0 then f.packets + 1 else f.packets }

def head (f : Receipt) (c : ℕ) : Receipt := { f with endSeq := c }

/-- The part behind a cut counts the copies of its bytes, but no packet. -/
def tail (f : Receipt) (c : ℕ) : Receipt := { f with startSeq := c, packets := 0 }

end Receipt

/-- One pass over received data from `s` up to `e`: the receipts after it, and where the next pass
starts. -/
def receivePass (lastSeq level s e : ℕ) :
    List (ℕ × Receipt) → List (ℕ × Receipt) × Option ℕ
  | [] => ([], none)
  | (key, f) :: l =>
      if key = s then
        if f.endSeq < e then ((s, f.record level) :: l, some f.endSeq)
        else if f.endSeq = e then ((s, f.record level) :: l, none)
        else ((s, (f.head e).record level) :: (e, f.tail e) :: l, none)
      else if key < s ∧ s < f.endSeq ∧ s < lastSeq then
        if f.endSeq < e then
          ((key, f.head s) :: (s, (f.tail s).record level) :: l, some f.endSeq)
        else if f.endSeq = e then
          ((key, f.head s) :: (s, (f.tail s).record level) :: l, none)
        else
          ((key, f.head s) :: (s, ((f.tail s).head e).record level) ::
            (e, (f.tail s).tail e) :: l, none)
      else
        let rest := receivePass lastSeq level s e l
        ((key, f) :: rest.1, rest.2)

namespace RangeManager

def receipt (r : ByteRange) : Receipt :=
  ⟨r.startSeq, r.endSeq, r.dataReceivedCount, r.packetReceivedCount⟩

def receipts (l : List Entry) : List (ℕ × Receipt) := l.map fun en => (en.1, receipt en.2)

theorem receipts_append (l l' : List Entry) : receipts (l ++ l') = receipts l ++ receipts l' :=
  List.map_append

theorem OnlyRanges.firstSeq {rm rm' : RangeManager} (h : OnlyRanges rm rm') :
    rm'.firstSeq = rm.firstSeq := by
  unfold OnlyRanges at h
  rw [h]

/-! ## A pass of the program is a pass over the receipts -/

section Pass

variable {lastSeq level s e : ℕ} {seg : DataSeg} {pre post old new : List Entry} {next : Option ℕ}

theorem receipt_recordRecv (seg : DataSeg) (level : ℕ) (r : ByteRange) :
    receipt (recordRecv seg level r) = (receipt r).record level := by
  have hcount : (recordRecv seg level r).dataReceivedCount = r.dataReceivedCount + 1 :=
    recordRecv_blind seg level r fun _ _ _ _ => rfl
  have hpackets : (recordRecv seg level r).packetReceivedCount =
      if level = 0 then r.packetReceivedCount + 1 else r.packetReceivedCount := by
    rw [recordRecv_blind seg level r (f := fun r => r.packetReceivedCount) fun _ _ _ _ => rfl]
    unfold recordRecvCounts
    split <;> rfl
  unfold receipt
  rw [hcount, hpackets, recordRecv_startSeq, recordRecv_endSeq]
  rfl

theorem receipt_finSet (seg : DataSeg) (r : ByteRange) : receipt (finSet seg r) = receipt r :=
  finSet_blind seg r fun _ _ => rfl

/-- Entries in which the pass does not start stay as they are. -/
theorem receivePass_append {pre l : List (ℕ × Receipt)}
    (hpre : ∀ en ∈ pre, en.1 ≠ s ∧ ¬(en.1 < s ∧ s < en.2.endSeq ∧ s < lastSeq)) :
    receivePass lastSeq level s e (pre ++ l) =
      (pre ++ (receivePass lastSeq level s e l).1, (receivePass lastSeq level s e l).2) := by
  induction pre with
  | nil => rfl
  | cons en pre ih =>
      obtain ⟨⟨hkey, hout⟩, hpre⟩ := List.forall_mem_cons.mp hpre
      rw [List.cons_append, receivePass, if_neg hkey, if_neg hout, ih hpre]
      rfl

theorem Pass.receipts_eq (hpass : Pass lastSeq .recv seg level s e pre post old new next)
    (hsorted : (pre ++ old ++ post).Pairwise fun a b => a.1 < b.1)
    (hwf : WfEntries (pre ++ old ++ post)) (hsep : Separated (pre ++ old ++ post)) (hlt : s < e)
    (hinside : ∀ key r, old = [(key, r)] → key < s → s < lastSeq) :
    receivePass lastSeq level s e (receipts (pre ++ old ++ post)) =
      (receipts (pre ++ new ++ post), next) := by
  -- the entries before the one that the pass starts in
  have hbefore : ∀ key r, old = [(key, r)] → key ≤ s →
      ∀ en ∈ receipts pre, en.1 ≠ s ∧ ¬(en.1 < s ∧ s < en.2.endSeq ∧ s < lastSeq) := by
    rintro key r rfl hkey en hen
    obtain ⟨d, hd, rfl⟩ := List.mem_map.mp hen
    obtain ⟨-, hends, -⟩ := separated_around hsep
    have hstart : key = r.startSeq := (hwf (key, r) (by simp)).1
    have hend : d.2.endSeq ≤ r.startSeq := hends d hd
    have hlow : d.1 < key := by
      rw [List.append_assoc] at hsorted
      exact (List.pairwise_append.mp hsorted).2.2 d hd (key, r) (by simp)
    refine ⟨?_, fun hin => ?_⟩
    · show d.1 ≠ s
      omega
    · have hin' : s < d.2.endSeq := hin.2.1
      omega
  rw [receipts_append, receipts_append, receipts_append, receipts_append, List.append_assoc,
    List.append_assoc]
  -- the entry that the pass starts in becomes `mid`
  have hfound : ∀ key r mid, old = [(key, r)] → key ≤ s → receipts new = mid →
      receivePass lastSeq level s e ((key, receipt r) :: receipts post) =
        (mid ++ receipts post, next) →
      receivePass lastSeq level s e (receipts pre ++ (receipts old ++ receipts post)) =
        (receipts pre ++ (receipts new ++ receipts post), next) := by
    rintro key r mid rfl hkey rfl hstep
    rw [receivePass_append (hbefore key r rfl hkey)]
    show (receipts pre ++ (receivePass lastSeq level s e ((key, receipt r) :: receipts post)).1,
      (receivePass lastSeq level s e ((key, receipt r) :: receipts post)).2) = _
    rw [hstep]
  cases hpass with
  | fresh hitype => cases hitype
  | reuse r c hitype => cases hitype
  | missing _ hpre hpost hgap =>
      have hall : ∀ en ∈ receipts (pre ++ post),
          en.1 ≠ s ∧ ¬(en.1 < s ∧ s < en.2.endSeq ∧ s < lastSeq) := by
        intro en hen
        obtain ⟨d, hd, rfl⟩ := List.mem_map.mp hen
        have hstart : d.1 = d.2.startSeq := (hwf d (by simpa using hd)).1
        refine ⟨?_, fun hin => hgap hin.2.2 d hd ⟨?_, hin.2.1⟩⟩
        · rcases List.mem_append.mp hd with hd | hd
          · exact (hpre d hd).ne
          · exact (hpost d hd).ne'
        · have hlow : d.1 < s := hin.1
          omega
      have hnone : receivePass lastSeq level s e (receipts (pre ++ post) ++ []) =
          (receipts (pre ++ post) ++ (receivePass lastSeq level s e []).1,
            (receivePass lastSeq level s e []).2) := receivePass_append hall
      rw [List.append_nil, receipts_append] at hnone
      rw [show receipts [] = [] from rfl, List.nil_append, hnone, receivePass, List.append_nil]
  | whole r hend =>
      refine hfound s r [(s, (receipt r).record level)] rfl le_rfl ?_ ?_
      · rw [← receipt_recordRecv seg]
        rfl
      · have heq : (receipt r).endSeq = e := hend
        rw [receivePass, if_pos rfl, if_neg heq.not_lt, if_pos heq]
        rfl
  | front r hend =>
      refine hfound s r [(s, (receipt (r.head e)).record level), (e, receipt (r.tail e))] rfl le_rfl
        ?_ ?_
      · rw [← receipt_recordRecv seg]
        rfl
      · have hnot : ¬(receipt r).endSeq < e := hend.not_gt
        have hne : ¬(receipt r).endSeq = e := hend.ne'
        rw [receivePass, if_pos rfl, if_neg hnot, if_neg hne]
        rfl
  | span r hbytes hend =>
      have hend' : (receipt r).endSeq < e := hend
      refine hfound s r [(s, (receipt r).record level)] rfl le_rfl ?_ ?_
      · rw [← receipt_recordRecv seg]
        rfl
      · rw [receivePass, if_pos rfl, if_pos hend']
        rfl
  | back key r hkey hlo hend =>
      have hin : key < s ∧ s < (receipt r).endSeq ∧ s < lastSeq  :=
        ⟨hkey, hlo, hinside key r rfl hkey⟩
      refine hfound key r [(key, receipt (r.head s)), (s, (receipt (r.tail s)).record level)] rfl
        hkey.le ?_ ?_
      · rw [← receipt_finSet seg (r.tail s), ← receipt_recordRecv seg]
        rfl
      · have heq : (receipt r).endSeq = e := hend
        rw [receivePass, if_neg hkey.ne, if_pos hin, if_neg heq.not_lt, if_pos heq]
        rfl
  | middle key r hkey hend =>
      have hin : key < s ∧ s < (receipt r).endSeq ∧ s < lastSeq :=
        ⟨hkey, hlt.trans hend, hinside key r rfl hkey⟩
      refine hfound key r [(key, receipt (r.head s)), (s, (receipt ((r.tail s).head e)).record level),
        (e, receipt ((r.tail s).tail e))] rfl hkey.le ?_ ?_
      · rw [← receipt_finSet seg ((r.tail s).head e), ← receipt_recordRecv seg]
        rfl
      · have hnot : ¬(receipt r).endSeq < e := hend.not_gt
        have hne : ¬(receipt r).endSeq = e := hend.ne'
        rw [receivePass, if_neg hkey.ne, if_pos hin, if_neg hnot, if_neg hne]
        rfl
  | beyond key r hkey hlo hend =>
      have hin : key < s ∧ s < (receipt r).endSeq ∧ s < lastSeq  :=
        ⟨hkey, hlo, hinside key r rfl hkey⟩
      have hend' : (receipt r).endSeq < e := hend
      refine hfound key r [(key, receipt (r.head s)), (s, (receipt (r.tail s)).record level)] rfl
        hkey.le ?_ ?_
      · rw [← receipt_recordRecv seg]
        rfl
      · rw [receivePass, if_neg hkey.ne, if_pos hin, if_pos hend']
        rfl

end Pass

/-! ## Runs that return agree -/

section Loop

variable {rm rm' : RangeManager} {seg : DataSeg} {level s e : ℕ} {out : Outcome}

/-- A pass over received data that returns; a range is cut at its start only below `lastSeq`. -/
theorem insertBody_recvPass (hapart : rm.Apart) (hlt : s < e)
    (hbytes : ∀ en ∈ rm.ranges.entries, en.1 = s → en.2.endSeq ≠ s)
    (h : rm.insertBody s e .recv seg level = .ok out) :
    ∃ pre old new post, rm.ranges.entries = pre ++ old ++ post ∧ OnlyRanges rm out.rm ∧
      out.rm.Apart ∧ out.rm.ranges.entries = pre ++ new ++ post ∧
      Pass rm.lastSeq .recv seg level s e pre post old new out.next ∧
      ∀ key r, old = [(key, r)] → key < s → s < rm.lastSeq := by
  have hrecv : InsertType.recv ≠ .sojourn := by simp
  obtain ⟨hwf, hsep⟩ := hapart
  have hsorted := rm.ranges.sorted
  have hmade := insertBody_madeOf hwf hlt (fun h => by cases h) hrecv (fun _ => hbytes) h
  obtain ⟨pre, old, new, post, hold, hframe, hnew, hpass⟩ :=
    insertBody_passes hwf hsep hlt (fun h => by cases h) hrecv (fun _ => hbytes) h
  rw [hold] at hwf hsep hsorted
  have hapart' : out.rm.Apart := hpass.apart hwf hsep hlt (fun h => by cases h) hnew
  refine ⟨pre, old, new, post, hold, hframe, hapart', hnew, hpass, ?_⟩
  rintro key r rfl hkey
  -- such a pass leaves more than one range
  have hcut : s < r.endSeq ∧ new.length ≠ 1 := by
    generalize out.next = next at hpass
    cases hpass with
    | reuse r c hitype => cases hitype
    | whole r | front r | span r => exact absurd rfl hkey.ne
    | back key r _ hlo => exact ⟨hlo, by simp⟩
    | middle key r _ hend => exact ⟨hlt.trans hend, by simp⟩
    | beyond key r _ hlo => exact ⟨hlo, by simp⟩
  obtain ⟨-, -, hpost⟩ := separated_around hsep
  have hfind : rm.ranges.find? s = none := by
    rw [OrdMap.find?_eq_none_iff, hold]
    intro o ho hos
    have hos' : o.1 = o.2.startSeq := (hwf o ho).1
    rw [List.append_assoc] at hsorted
    rcases List.mem_append.mp ho with ho | ho
    · rcases List.mem_append.mp ho with ho | ho
      · have hlow : o.1 < key := (List.pairwise_append.mp hsorted).2.2 o ho (key, r) (by simp)
        omega
      · obtain rfl := List.mem_singleton.mp ho
        exact hkey.ne hos
    · have hle : r.endSeq ≤ o.2.startSeq := hpost o ho
      omega
  rcases hmade.last rfl hfind with hkept | hlast
  · have hsame : pre ++ new ++ post = pre ++ [(key, r)] ++ post := by
      rw [← hnew, ← hold, hkept]
    have hnew' : new = [(key, r)] :=
      List.append_cancel_left (List.append_cancel_right hsame)
    exact absurd (congrArg List.length hnew') hcut.2
  · exact hlast

theorem insertBody_receipts (hapart : rm.Apart) (hlt : s < e)
    (hbytes : ∀ en ∈ rm.ranges.entries, en.1 = s → en.2.endSeq ≠ s)
    (h : rm.insertBody s e .recv seg level = .ok out) :
    OnlyRanges rm out.rm ∧ out.rm.Apart ∧
      receivePass rm.lastSeq level s e (receipts rm.ranges.entries) =
        (receipts out.rm.ranges.entries, out.next) := by
  obtain ⟨pre, old, new, post, hold, hframe, hapart', hnew, hpass, hcut⟩ :=
    insertBody_recvPass hapart hlt hbytes h
  obtain ⟨hwf, hsep⟩ := hapart
  have hsorted := rm.ranges.sorted
  rw [hold] at hwf hsep hsorted
  refine ⟨hframe, hapart', ?_⟩
  rw [hnew, hold]
  exact hpass.receipts_eq hsorted hwf hsep hlt hcut

/-- Two insertions that return, of the same data into maps with the same receipts. -/
theorem insertLoop_receipts {rm₁ rm₂ rm₁' rm₂' : RangeManager} {seg₁ seg₂ : DataSeg} {fuel : ℕ}
    {ret₁ ret₂ : Bool} (hapart₁ : rm₁.Apart) (hapart₂ : rm₂.Apart) (hlt : s < e)
    (hlast : rm₁.lastSeq = rm₂.lastSeq)
    (hsame : receipts rm₁.ranges.entries = receipts rm₂.ranges.entries)
    (h₁ : insertLoop e .recv seg₁ fuel rm₁ s level = .ok (rm₁', ret₁))
    (h₂ : insertLoop e .recv seg₂ fuel rm₂ s level = .ok (rm₂', ret₂)) :
    rm₁'.Apart ∧ rm₂'.Apart ∧ rm₁'.lastSeq = rm₂'.lastSeq ∧
      receipts rm₁'.ranges.entries = receipts rm₂'.ranges.entries := by
  induction fuel generalizing rm₁ rm₂ s level with
  | zero => cases h₁
  | succ fuel ih =>
      have hbytes : ∀ {rm rm' : RangeManager} {seg ret},
          insertLoop e .recv seg (fuel + 1) rm s level = .ok (rm', ret) →
          ∀ en ∈ rm.ranges.entries, en.1 = s → en.2.endSeq ≠ s := by
        rintro rm rm' seg ret h ⟨key, r⟩ hen rfl hempty
        exact insertLoop_stuck (OrdMap.find?_eq_some_iff.mpr hen) hempty hlt h
      have hbytes₁ := hbytes h₁
      have hbytes₂ := hbytes h₂
      rw [insertLoop] at h₁ h₂
      cases hbody₁ : rm₁.insertBody s e .recv seg₁ level with
      | error err =>
          rw [hbody₁] at h₁
          cases h₁
      | ok out₁ =>
          cases hbody₂ : rm₂.insertBody s e .recv seg₂ level with
          | error err =>
              rw [hbody₂] at h₂
              cases h₂
          | ok out₂ =>
              obtain ⟨hframe₁, hapart₁', hpass₁⟩ := insertBody_receipts hapart₁ hlt hbytes₁ hbody₁
              obtain ⟨hframe₂, hapart₂', hpass₂⟩ := insertBody_receipts hapart₂ hlt hbytes₂ hbody₂
              -- both passes are the one on receipts, so they leave the same and go on at one place
              rw [hsame, hlast, hpass₂] at hpass₁
              obtain ⟨hentries, hnext⟩ := Prod.mk.inj hpass₁
              have hlast' : out₁.rm.lastSeq = out₂.rm.lastSeq := by
                rw [OnlyRanges.lastSeq hframe₁, OnlyRanges.lastSeq hframe₂, hlast]
              rw [hbody₁] at h₁
              rw [hbody₂] at h₂
              cases out₁ with
              | done rm₁₁ ret₁₁ =>
                  cases out₂ with
                  | again rm₂₂ s₂ => cases hnext
                  | done rm₂₂ ret₂₂ =>
                      obtain ⟨rfl, -⟩ := Prod.mk.inj (Except.ok.inj h₁)
                      obtain ⟨rfl, -⟩ := Prod.mk.inj (Except.ok.inj h₂)
                      exact ⟨hapart₁', hapart₂', hlast', hentries.symm⟩
              | again rm₁₁ s₁ =>
                  cases out₂ with
                  | done rm₂₂ ret₂₂ => cases hnext
                  | again rm₂₂ s₂ =>
                      obtain rfl : s₂ = s₁ := Option.some.inj hnext
                      have hhi : s₂ < e := by
                        have hmade := insertBody_madeOf hapart₁.1 hlt (fun h => by cases h)
                          (by simp) (fun _ => hbytes₁) hbody₁
                        exact (hmade.bounds s₂ rfl).2
                      exact ih hapart₁' hapart₂' hhi hlast' hentries.symm h₁ h₂

end Loop

/-! ## When a run returns -/

/-- The ranges that data from `s` up to `e` meets, each where the one before it ends; it may start
inside the first one. -/
def metFrom (e : ℕ) : List Entry → ℕ → List Entry
  | [], _ => []
  | (key, r) :: l, s =>
      if key = s ∨ key < s ∧ s < r.endSeq then
        (key, r) :: if r.endSeq < e then metFrom e l r.endSeq else []
      else metFrom e l s

/-- Above `lastSeq`, data that starts at no range is dropped. -/
def met (rm : RangeManager) (s e : ℕ) : List Entry :=
  if (rm.ranges.find? s).isSome ∨ s < rm.lastSeq then metFrom e rm.ranges.entries s else []

/-- The timestamp that `insertByteRange` asserts when data reaches past the range. -/
def assertedTstamp (r : ByteRange) (tstampTcp : ℕ) : ℕ :=
  if r.dataReceivedCount.val = 0 then tstampTcp else r.receivedTstampTcp

/-- Data from `s` up to `e` is received to its end. -/
structure RunsThrough (rm : RangeManager) (tstampTcp level s e : ℕ) : Prop where
  /-- some range starts below the end of data that starts at none -/
  window : rm.ranges.find? s = none → s < rm.lastSeq → ∃ en ∈ rm.ranges.entries, en.1 ≤ e
  /-- data that ends where the first byte of the stream does ends with a range -/
  synAck : e = add32 rm.firstSeq 1 → ∀ en ∈ rm.met s e, s ≤ en.1 → en.2.endSeq = e
  /-- the ranges it reaches past have bytes and a timestamp -/
  bytes : ∀ en ∈ rm.met s e, s ≤ en.1 → en.2.endSeq < e → en.1 < en.2.endSeq
  stamped : ∀ en ∈ rm.met s e, s ≤ en.1 → en.2.endSeq < e →
    assertedTstamp en.2 tstampTcp ≠ 0
  /-- there are not too many of them -/
  levels : level + ((rm.met s e).countP fun en => decide (en.2.endSeq < e)) ≤ recursionLevel + 1

section Returns

variable {rm rm' : RangeManager} {seg : DataSeg} {level s e : ℕ} {out : Outcome}

theorem assertedTstamp_recordRecv (r : ByteRange) :
    (recordRecv seg level r).receivedTstampTcp = assertedTstamp r seg.tstampTcp := by
  unfold recordRecv ByteRange.increaseReceived assertedTstamp
  dsimp only
  split
  · split <;> rfl
  · split <;> rfl

theorem metFrom_append {pre l : List Entry}
    (hpre : ∀ en ∈ pre, ¬(en.1 = s ∨ en.1 < s ∧ s < en.2.endSeq)) :
    metFrom e (pre ++ l) s = metFrom e l s := by
  induction pre with
  | nil => rfl
  | cons en pre ih =>
      obtain ⟨hen, hpre⟩ := List.forall_mem_cons.mp hpre
      rw [List.cons_append, metFrom, if_neg hen, ih hpre]

theorem metFrom_eq_nil {l : List Entry}
    (h : ∀ en ∈ l, ¬(en.1 = s ∨ en.1 < s ∧ s < en.2.endSeq)) : metFrom e l s = [] := by
  have hall := metFrom_append (e := e) (l := []) h
  rwa [List.append_nil] at hall

/-- The window of a search is empty only if every range starts behind the data. -/
theorem searchWindow_eq_nil_iff (hlt : s < e) :
    rm.searchWindow s e = [] ↔ ∀ en ∈ rm.ranges.entries, e < en.1 := by
  have hsplit := rm.ranges.below_append_atLeast s
  unfold searchWindow
  cases hbelow : (rm.ranges.below s).getLast? with
  -- the range before `s` is always in the window
  | some en =>
      have hmem := List.mem_of_getLast? hbelow
      have hlow : en.1 < s := OrdMap.lt_of_mem_below hmem
      have hle : en.1 ≤ e := by omega
      rw [Option.toList_some, List.singleton_append, List.takeWhile_cons_of_pos (by simpa using hle)]
      constructor
      · intro h
        cases h
      · intro h
        have := h en (hsplit ▸ List.mem_append_left _ hmem)
        omega
  | none =>
      rw [List.getLast?_eq_none_iff] at hbelow
      rw [hbelow, List.nil_append] at hsplit
      rw [Option.toList_none, List.nil_append, hsplit, List.takeWhile_eq_nil_iff]
      have hsorted := rm.ranges.sorted
      cases hentries : rm.ranges.entries with
      | nil => simp
      | cons d l =>
          rw [hentries] at hsorted
          have hfirst := (List.pairwise_cons.mp hsorted).1
          constructor
          · intro h en hen
            have hd : e < d.1 := by simpa using h (by simp)
            rcases List.mem_cons.mp hen with rfl | hen
            · exact hd
            · exact hd.trans (hfirst en hen)
          · intro h hpos
            have := h d List.mem_cons_self
            simpa using this

/-- What a pass over received data needs to return. -/
def PassReturns (rm : RangeManager) (tstampTcp level s e : ℕ) : Prop :=
  (rm.ranges.find? s = none → s < rm.lastSeq → ∃ en ∈ rm.ranges.entries, en.1 ≤ e) ∧
    ∀ r, rm.ranges.find? s = some r →
      (e = add32 rm.firstSeq 1 → r.endSeq = e) ∧
        (r.endSeq < e → assertedTstamp r tstampTcp ≠ 0 ∧ level ≤ recursionLevel)

theorem insertNotFound_ok_iff (hapart : rm.Apart) (hfree : rm.ranges.find? s = none) (hlt : s < e) :
    (∃ out, rm.insertNotFound s e .recv seg level = .ok out) ↔
      (s < rm.lastSeq → ∃ en ∈ rm.ranges.entries, en.1 ≤ e) := by
  obtain ⟨hwf, hsep⟩ := hapart
  unfold insertNotFound
  by_cases hlast : s < rm.lastSeq
  · rw [if_pos hlast]
    cases hw : rm.searchWindow s e with
    | nil =>
        have hbehind := (searchWindow_eq_nil_iff hlt).mp hw
        constructor
        · rintro ⟨out, h⟩
          cases h
        · intro h
          obtain ⟨en, hen, hle⟩ := h hlast
          have := hbehind en hen
          omega
    | cons w ws =>
        have hsome : ∃ en ∈ rm.ranges.entries, en.1 ≤ e := by
          by_contra hnone
          push Not at hnone
          rw [(searchWindow_eq_nil_iff hlt).mpr hnone] at hw
          cases hw
        refine iff_of_true ?_ fun _ => hsome
        dsimp only
        rw [← hw]
        split
        · next key r hfind =>
            have hmem := mem_entries_of_mem_searchWindow (List.mem_of_find?_eq_some hfind)
            have hhold : r.Holds s := by
              simpa [ByteRange.Holds] using List.find?_some hfind
            have hkey := key_lt_of_holds hwf hfree hmem hhold
            obtain ⟨out, hout, -⟩ := splitExisting_passes .recv seg level hwf hsep hmem hkey
              hhold.2 hlt
            rw [if_neg (by simp)]
            exact ⟨out, hout⟩
        · exact ⟨_, rfl⟩
  · rw [if_neg hlast]
    exact iff_of_true ⟨_, rfl⟩ fun h => absurd h hlast

theorem insertFound_ok_iff {r : ByteRange} (hwf : WfEntries rm.ranges.entries)
    (hmem : (s, r) ∈ rm.ranges.entries) (hlt : s < e) :
    (∃ out, rm.insertFound s e .recv seg level r = .ok out) ↔
      (e = add32 rm.firstSeq 1 → r.endSeq = e) ∧
        (r.endSeq < e → assertedTstamp r seg.tstampTcp ≠ 0 ∧ level ≤ recursionLevel) := by
  have hrecv : InsertType.recv ≠ .sojourn := by simp
  have hr : s = r.startSeq ∧ r.Wf := hwf _ hmem
  have herror : r.endSeq ≠ e → e = add32 rm.firstSeq 1 →
      ¬∃ out, rm.insertFound s e .recv seg level r = .ok out := by
    rintro hne hack ⟨out, h⟩
    unfold insertFound at h
    rw [if_pos ⟨hne, rfl, hack⟩] at h
    cases h
  -- the data ends inside the range, with it, or behind it, where the call goes on
  rcases lt_trichotomy e r.endSeq with hin | hend | hout
  · by_cases hack : e = add32 rm.firstSeq 1
    · exact iff_of_false (herror hin.ne' hack) fun h => hin.ne' (h.1 hack)
    · refine iff_of_true ⟨_, insertFound_front hrecv (fun h => hack h.2) hr.2 (by omega) hin⟩ ?_
      exact ⟨fun h => absurd h hack, fun h => by omega⟩
  · refine iff_of_true ⟨_, insertFound_whole hrecv hend.symm⟩ ?_
    exact ⟨fun _ => hend.symm, fun h => by omega⟩
  · by_cases hack : e = add32 rm.firstSeq 1
    · exact iff_of_false (herror hout.ne hack) fun h => hout.ne (h.1 hack)
    · rw [insertFound_span_recv hack hout, assertedTstamp_recordRecv]
      by_cases hstamp : assertedTstamp r seg.tstampTcp = 0
      · rw [if_pos hstamp]
        exact iff_of_false (fun ⟨_, h⟩ => by cases h) fun h => (h.2 hout).1 hstamp
      · rw [if_neg hstamp]
        by_cases hlevel : recursionLevel < level
        · rw [if_pos hlevel]
          exact iff_of_false (fun ⟨_, h⟩ => by cases h) fun h => by
            have := (h.2 hout).2
            omega
        · rw [if_neg hlevel]
          exact iff_of_true ⟨_, rfl⟩ ⟨fun h => absurd h hack, fun _ => ⟨hstamp, by omega⟩⟩

theorem insertBody_ok_iff (hapart : rm.Apart) (hlt : s < e) :
    (∃ out, rm.insertBody s e .recv seg level = .ok out) ↔
      PassReturns rm seg.tstampTcp level s e := by
  unfold insertBody PassReturns
  rw [if_neg hlt.ne]
  cases hfind : rm.ranges.find? s with
  | none =>
      dsimp only
      rw [insertNotFound_ok_iff hapart hfind hlt]
      simp
  | some r =>
      dsimp only
      rw [insertFound_ok_iff hapart.1 (OrdMap.find?_eq_some_iff.mp hfind) hlt]
      simp

/-- What a pass that returns has met, and what the next one meets. -/
theorem insertBody_met (hapart : rm.Apart) (hlt : s < e)
    (hbytes : ∀ en ∈ rm.ranges.entries, en.1 = s → en.2.endSeq ≠ s)
    (h : rm.insertBody s e .recv seg level = .ok out) :
    (out.next = none → ∀ en ∈ rm.met s e, e ≤ en.2.endSeq ∧
      (s ≤ en.1 → rm.ranges.find? s = some en.2)) ∧
    ∀ s', out.next = some s' → s < s' ∧ s' < e ∧
      (∀ en ∈ out.rm.ranges.entries, en.1 < s' → en.2.endSeq ≤ s') ∧
      (∃ en ∈ out.rm.ranges.entries, en.1 ≤ e) ∧
      ∃ en, rm.met s e = en :: out.rm.met s' e ∧ en.2.endSeq = s' ∧
        (s ≤ en.1 → en.1 = s ∧ rm.ranges.find? s = some en.2) ∧
        (en.1 < s → ∃ en ∈ rm.ranges.entries, en.1 < s ∧ s < en.2.endSeq) := by
  obtain ⟨pre, old, new, post, hold, hframe, hapart', hnew, hpass, hcut⟩ :=
    insertBody_recvPass hapart hlt hbytes h
  obtain ⟨hwf, hsep⟩ := hapart
  have hsorted := rm.ranges.sorted
  have hsorted' := out.rm.ranges.sorted
  have hfind : ∀ r, rm.ranges.find? s = some r ↔ (s, r) ∈ pre ++ old ++ post := by
    intro r
    rw [OrdMap.find?_eq_some_iff, hold]
  rw [hold] at hwf hsep hsorted
  -- the range that the pass starts in is met first
  have hmet : ∀ key r, old = [(key, r)] → key = s ∨ key < s ∧ s < r.endSeq →
      rm.met s e = (key, r) :: if r.endSeq < e then metFrom e post r.endSeq else [] := by
    rintro key r rfl hstart
    have hgate : (rm.ranges.find? s).isSome ∨ s < rm.lastSeq := by
      rcases hstart with rfl | ⟨hkey, -⟩
      · rw [(hfind r).mpr (by simp)]
        exact .inl rfl
      · exact .inr (hcut key r rfl hkey)
    have hpre : ∀ en ∈ pre, ¬(en.1 = s ∨ en.1 < s ∧ s < en.2.endSeq) := by
      intro en hen
      obtain ⟨-, hends, -⟩ := separated_around hsep
      have hkey : key = r.startSeq := (hwf (key, r) (by simp)).1
      have hend : en.2.endSeq ≤ r.startSeq := hends en hen
      have hlow : en.1 < key := by
        rw [List.append_assoc] at hsorted
        exact (List.pairwise_append.mp hsorted).2.2 en hen (key, r) (by simp)
      omega
    unfold met
    rw [if_pos hgate, hold, List.append_assoc, metFrom_append hpre, List.singleton_append, metFrom,
      if_pos hstart]
  -- the next pass meets what lies behind it
  have hmet' : ∀ s', out.next = some s' → out.rm.met s' e = metFrom e post s' := by
    intro s' hs'
    have hcont := hpass.continues hwf hsep hs'
    have hbehind : ∀ en ∈ pre ++ new, ¬(en.1 = s' ∨ en.1 < s' ∧ s' < en.2.endSeq) := by
      intro en hen
      have hlt' := (hpass.next_bounds hs').1
      rcases List.mem_append.mp hen with hen | hen
      · have := hcont.pre_le en hen
        omega
      · have := hcont.new_le en hen
        omega
    have hall : metFrom e out.rm.ranges.entries s' = metFrom e post s' := by
      rw [hnew, metFrom_append hbehind]
    unfold met
    split
    · exact hall
    · next hnone =>
        push Not at hnone
        have hfree : out.rm.ranges.find? s' = none := by simpa using hnone.1
        symm
        apply metFrom_eq_nil
        intro en hen
        have hle := hcont.le_post en hen
        have hne := OrdMap.find?_eq_none_iff.mp hfree en (by simp [hnew, hen])
        omega
  constructor
  · intro hnone en hen
    have hfirst : ∀ key r, old = [(key, r)] → key = s ∨ key < s ∧ s < r.endSeq →
        ¬r.endSeq < e → e ≤ en.2.endSeq ∧ (s ≤ en.1 → rm.ranges.find? s = some en.2) := by
      rintro key r rfl hstart hend
      rw [hmet key r rfl hstart, if_neg hend] at hen
      obtain rfl := List.mem_singleton.mp hen
      refine ⟨Nat.not_lt.mp hend, fun hle => ?_⟩
      obtain rfl : s = key := by
        have hle' : s ≤ key := hle
        omega
      exact (hfind r).mpr (by simp)
    clear hmet'
    generalize out.next = next at hpass hnone
    cases hpass with
    | fresh hitype => cases hitype
    | reuse r c hitype => cases hitype
    | span | beyond => cases hnone
    | whole r hend => exact hfirst s r rfl (.inl rfl) hend.not_lt
    | front r hend => exact hfirst s r rfl (.inl rfl) hend.not_gt
    | back key r hkey hlo hend => exact hfirst key r rfl (.inr ⟨hkey, hlo⟩) hend.not_lt
    | middle key r hkey hend => exact hfirst key r rfl (.inr ⟨hkey, hlt.trans hend⟩) hend.not_gt
    | missing _ hpre hpost hgap =>
        have hfree : ∀ o ∈ pre ++ post, o.1 ≠ s := by
          intro o ho
          rcases List.mem_append.mp ho with ho | ho
          · exact (hpre o ho).ne
          · exact (hpost o ho).ne'
        have hnil : rm.met s e = [] := by
          unfold met
          split
          · next hgate =>
              apply metFrom_eq_nil
              intro o ho
              rw [hold, List.append_nil] at ho
              have hstart : o.1 = o.2.startSeq := (hwf o (by simpa using ho)).1
              rcases hgate with hsome | hlast
              · obtain ⟨r, hr⟩ := Option.isSome_iff_exists.mp hsome
                exact absurd rfl (hfree (s, r) (by simpa using (hfind r).mp hr))
              · rintro (hkey | ⟨hkey, hend⟩)
                · exact hfree o ho hkey
                · exact hgap hlast o ho ⟨by omega, hend⟩
          · rfl
        rw [hnil] at hen
        cases hen
  · intro s' hs'
    obtain ⟨hlo', hhi'⟩ := hpass.next_bounds hs'
    have hcont := hpass.continues hwf hsep hs'
    have hends : ∀ en ∈ out.rm.ranges.entries, en.1 < s' → en.2.endSeq ≤ s' := by
      intro en hen hkey
      rw [hnew] at hen
      rcases List.mem_append.mp hen with hen | hen
      · rcases List.mem_append.mp hen with hen | hen
        · have := hcont.pre_le en hen
          omega
        · exact (hcont.new_le en hen).2
      · have := hcont.le_post en hen
        omega
    have hkept : ∃ en ∈ out.rm.ranges.entries, en.1 ≤ e := by
      have hsome : ∃ en, en ∈ new := by
        clear hmet' hcont
        generalize out.next = next at hpass hs'
        cases hpass with
        | fresh | missing | whole | front | back | middle => cases hs'
        | reuse r c hitype => cases hitype
        | span r | beyond key r => exact ⟨_, List.mem_cons_self⟩
      obtain ⟨en, hen⟩ := hsome
      have hlow := (hcont.new_le en hen).1
      refine ⟨en, ?_, by omega⟩
      rw [hnew]
      simp [hen]
    refine ⟨hlo', hhi', hends, hkept, ?_⟩
    rw [hmet' s' hs']
    clear hmet' hcont
    generalize out.next = next at hpass hs'
    cases hpass with
    | fresh | missing | whole | front | back | middle => cases hs'
    | reuse r c hitype => cases hitype
    | span r hbytes' hend =>
        obtain rfl := Option.some.inj hs'
        refine ⟨(s, r), ?_, rfl, fun _ => ⟨rfl, (hfind r).mpr (by simp)⟩, fun hlow => ?_⟩
        · rw [hmet s r rfl (.inl rfl), if_pos hend]
        · exact absurd hlow (lt_irrefl s)
    | beyond key r hkey hlo hend =>
        obtain rfl := Option.some.inj hs'
        refine ⟨(key, r), ?_, rfl, fun hle => ?_, fun _ => ⟨(key, r), ?_, hkey, hlo⟩⟩
        · rw [hmet key r rfl (.inr ⟨hkey, hlo⟩), if_pos hend]
        · exact absurd hkey hle.not_gt
        · rw [hold]
          simp

theorem le_key_or_lt_end_of_mem_metFrom {l : List Entry} (hwf : WfEntries l) {en : Entry}
    (h : en ∈ metFrom e l s) : s ≤ en.1 ∨ s < en.2.endSeq := by
  induction l generalizing s with
  | nil => cases h
  | cons d l ih =>
      obtain ⟨key, r⟩ := d
      obtain ⟨⟨hkey, hr⟩, hwf'⟩ := wfEntries_cons.mp hwf
      have hkey' : key = r.startSeq := hkey
      have hle : r.startSeq ≤ r.endSeq := hr.le
      rw [metFrom] at h
      split at h
      · next hstart =>
          rcases List.mem_cons.mp h with rfl | h
          · rcases hstart with hkey | ⟨-, hend⟩
            · exact .inl hkey.ge
            · exact .inr hend
          · split at h
            · have := ih hwf' h
              omega
            · cases h
      · exact ih hwf' h

theorem mem_of_mem_metFrom {l : List Entry} {en : Entry} (h : en ∈ metFrom e l s) : en ∈ l := by
  induction l generalizing s with
  | nil => cases h
  | cons d l ih =>
      obtain ⟨key, r⟩ := d
      rw [metFrom] at h
      split at h
      · rcases List.mem_cons.mp h with rfl | h
        · exact List.mem_cons_self
        · split at h
          · exact List.mem_cons_of_mem _ (ih h)
          · cases h
      · exact List.mem_cons_of_mem _ (ih h)

/-- Behind the ranges that end at or below `s`, all ranges met start at or behind it. -/
theorem le_key_of_mem_met (hapart : rm.Apart)
    (hends : ∀ en ∈ rm.ranges.entries, en.1 < s → en.2.endSeq ≤ s) {en : Entry}
    (h : en ∈ rm.met s e) : s ≤ en.1 := by
  unfold met at h
  split at h
  · rcases le_key_or_lt_end_of_mem_metFrom hapart.1 h with hle | hend
    · exact hle
    · by_contra hlow
      have := hends en (mem_of_mem_metFrom h) (by omega)
      omega
  · cases h

theorem met_of_found (hapart : rm.Apart) {r : ByteRange} (hfind : rm.ranges.find? s = some r) :
    ∃ l, rm.met s e = (s, r) :: l := by
  obtain ⟨hwf, hsep⟩ := hapart
  obtain ⟨pre, post, hcut⟩ := OrdMap.exists_cut_of_find? hfind
  have hpre : ∀ en ∈ pre, ¬(en.1 = s ∨ en.1 < s ∧ s < en.2.endSeq) := by
    intro en hen
    have hlow := OrdMap.lt_of_mem_pre hcut hen
    rw [hcut] at hwf hsep
    have hkey : s = r.startSeq := (hwf (s, r) (by simp)).1
    have hend : en.2.endSeq ≤ r.startSeq :=
      (separated_append.mp hsep).2.2 en hen (s, r) List.mem_cons_self
    omega
  unfold met
  rw [if_pos (.inl (by rw [hfind]; rfl)), hcut, metFrom_append hpre, metFrom, if_pos (.inl rfl)]
  exact ⟨_, rfl⟩

theorem RunsThrough.passReturns {tstampTcp : ℕ} (h : RunsThrough rm tstampTcp level s e)
    (hapart : rm.Apart) : PassReturns rm tstampTcp level s e := by
  refine ⟨h.window, fun r hfind => ?_⟩
  obtain ⟨l, hmet⟩ := met_of_found (e := e) hapart hfind
  have hmem : (s, r) ∈ rm.met s e := by
    rw [hmet]
    exact List.mem_cons_self
  refine ⟨fun hack => h.synAck hack _ hmem le_rfl, fun hend => ?_⟩
  refine ⟨h.stamped _ hmem le_rfl hend, ?_⟩
  have hlevels := h.levels
  rw [hmet, List.countP_cons_of_pos (by simpa using hend)] at hlevels
  omega

/-- An insertion of received data returns exactly when the data runs through. -/
theorem insertLoop_recv_ok_iff {fuel : ℕ} (hapart : rm.Apart) (hlt : s < e) (hfuel : e - s < fuel)
    (hlevel : level ≤ recursionLevel + 1)
    (hplace : level = 0 ∨ ∀ en ∈ rm.ranges.entries, en.1 < s → en.2.endSeq ≤ s) :
    (∃ res, insertLoop e .recv seg fuel rm s level = .ok res) ↔
      RunsThrough rm seg.tstampTcp level s e := by
  induction fuel generalizing rm s level with
  | zero => omega
  | succ fuel ih =>
      by_cases hempty : ∃ r, rm.ranges.find? s = some r ∧ r.endSeq = s
      · -- the range would be visited for ever
        obtain ⟨r, hfind, hend⟩ := hempty
        have hnot : ¬∃ res, insertLoop e .recv seg (fuel + 1) rm s level = .ok res := by
          rintro ⟨res, h⟩
          exact insertLoop_stuck hfind hend hlt h
        refine iff_of_false hnot fun h => ?_
        obtain ⟨l, hmet⟩ := met_of_found (e := e) hapart hfind
        have hbytes := h.bytes (s, r) (by rw [hmet]; exact List.mem_cons_self) le_rfl
          (show r.endSeq < e by omega)
        have hbytes' : s < r.endSeq := hbytes
        omega
      have hbytes : ∀ en ∈ rm.ranges.entries, en.1 = s → en.2.endSeq ≠ s := by
        rintro ⟨key, r⟩ hen rfl hend
        exact hempty ⟨r, OrdMap.find?_eq_some_iff.mpr hen, hend⟩
      have hok : (∃ out, rm.insertBody s e .recv seg level = .ok out) ↔
          PassReturns rm seg.tstampTcp level s e := insertBody_ok_iff hapart hlt
      cases hbody : rm.insertBody s e .recv seg level with
      | error err =>
          rw [insertLoop, hbody]
          have hnot : ¬∃ res : RangeManager × Bool, Except.error err = .ok res := by simp
          refine iff_of_false hnot fun h => ?_
          obtain ⟨out, hout⟩ := hok.mpr (h.passReturns hapart)
          rw [hbody] at hout
          cases hout
      | ok out =>
          obtain ⟨hwindow, hfound⟩ := hok.mp ⟨out, hbody⟩
          -- this pass meets the first of the ranges, and the next call the others
          obtain ⟨hdone, hagain⟩ := insertBody_met hapart hlt hbytes hbody
          rw [insertLoop, hbody]
          cases out with
          | done rm₁ ret =>
              refine iff_of_true ⟨_, rfl⟩ ⟨hwindow, fun hack en hen hle => ?_, fun en hen _ hend => ?_,
                fun en hen _ hend => ?_, ?_⟩
              · exact (hfound _ ((hdone rfl en hen).2 hle)).1 hack
              · exact absurd hend (hdone rfl en hen).1.not_gt
              · exact absurd hend (hdone rfl en hen).1.not_gt
              · have hnone : (rm.met s e).countP (fun en => decide (en.2.endSeq < e)) = 0 := by
                  rw [List.countP_eq_zero]
                  intro en hen
                  simpa using (hdone rfl en hen).1
                rw [hnone]
                exact hlevel
          | again rm₁ s₁ =>
              obtain ⟨hlo, hhi, hends, hkept, en, hmet, hend, hstart, hinside⟩ := hagain s₁ rfl
              obtain ⟨hframe, hapart₁, -⟩ := insertBody_receipts hapart hlt hbytes hbody
              have hfirst : rm₁.firstSeq = rm.firstSeq := OnlyRanges.firstSeq hframe
              have hmet' : rm.met s e = en :: rm₁.met s₁ e := hmet
              have hlevel' : level ≤ recursionLevel := by
                by_cases hkey : s ≤ en.1
                · exact ((hfound _ (hstart hkey).2).2 (by omega)).2
                · obtain ⟨o, ho, hlow, hhigh⟩ := hinside (by omega)
                  rcases hplace with rfl | hplace
                  · exact Nat.zero_le _
                  · have := hplace o ho hlow
                    omega
              have hcount : (rm.met s e).countP (fun en => decide (en.2.endSeq < e)) =
                  (rm₁.met s₁ e).countP (fun en => decide (en.2.endSeq < e)) + 1 := by
                rw [hmet', List.countP_cons_of_pos (by simpa [hend] using hhi)]
              have hahead : ∀ d ∈ rm₁.met s₁ e, s₁ ≤ d.1 := fun d hd =>
                le_key_of_mem_met hapart₁ hends hd
              have hrest : (∃ res, insertLoop e .recv seg fuel rm₁ s₁ (level + 1) = .ok res) ↔
                  RunsThrough rm₁ seg.tstampTcp (level + 1) s₁ e :=
                ih hapart₁ hhi (by omega) (by omega) (.inr hends)
              refine hrest.trans ?_
              constructor
              · intro h
                have hlevels := h.levels
                refine ⟨hwindow, fun hack => ?_, ?_, ?_, by omega⟩
                · rw [hmet', List.forall_mem_cons]
                  refine ⟨fun hle => (hfound _ (hstart hle).2).1 hack, fun d hd _ => ?_⟩
                  exact h.synAck (hfirst ▸ hack) d hd (hahead d hd)
                · rw [hmet', List.forall_mem_cons]
                  refine ⟨fun hle _ => ?_, fun d hd _ => h.bytes d hd (hahead d hd)⟩
                  rw [(hstart hle).1, hend]
                  exact hlo
                · rw [hmet', List.forall_mem_cons]
                  refine ⟨fun hle hde => ?_, fun d hd _ => h.stamped d hd (hahead d hd)⟩
                  exact ((hfound _ (hstart hle).2).2 hde).1
              · intro h
                have hlevels := h.levels
                have htail : ∀ d ∈ rm₁.met s₁ e, d ∈ rm.met s e := by
                  intro d hd
                  rw [hmet']
                  exact List.mem_cons_of_mem _ hd
                refine ⟨fun _ _ => hkept, fun hack d hd hle => ?_, fun d hd hle => ?_,
                  fun d hd hle => ?_, by omega⟩
                · exact h.synAck (hfirst ▸ hack) d (htail d hd) (hlo.le.trans hle)
                · exact h.bytes d (htail d hd) (hlo.le.trans hle)
                · exact h.stamped d (htail d hd) (hlo.le.trans hle)

end Returns

/-! ## Whole receiver traces -/

/-- The condition of one step. -/
def ReceivesAll (rm : RangeManager) (sd : SendData) : Prop :=
  RunsThrough rm sd.data.tstampTcp 0 sd.data.seq sd.data.endSeq

instance (rm : RangeManager) (tstampTcp level s e : ℕ) :
    Decidable (RunsThrough rm tstampTcp level s e) :=
  decidable_of_iff
    ((rm.ranges.find? s = none → s < rm.lastSeq → ∃ en ∈ rm.ranges.entries, en.1 ≤ e) ∧
      (e = add32 rm.firstSeq 1 → ∀ en ∈ rm.met s e, s ≤ en.1 → en.2.endSeq = e) ∧
      (∀ en ∈ rm.met s e, s ≤ en.1 → en.2.endSeq < e → en.1 < en.2.endSeq) ∧
      (∀ en ∈ rm.met s e, s ≤ en.1 → en.2.endSeq < e → assertedTstamp en.2 tstampTcp ≠ 0) ∧
      level + ((rm.met s e).countP fun en => decide (en.2.endSeq < e)) ≤ recursionLevel + 1)
    ⟨fun h => ⟨h.1, h.2.1, h.2.2.1, h.2.2.2.1, h.2.2.2.2⟩,
      fun h => ⟨h.window, h.synAck, h.bytes, h.stamped, h.levels⟩⟩

instance (rm : RangeManager) (sd : SendData) : Decidable (ReceivesAll rm sd) :=
  inferInstanceAs (Decidable (RunsThrough _ _ _ _ _))

/-- Two copies of a segment that differ in the TCP timestamps only. -/
def SameButTstamps (sd₁ sd₂ : SendData) : Prop :=
  sd₂ = { sd₁ with data :=
    { sd₁.data with
      tstampTcp := sd₂.data.tstampTcp
      tstampTcpEcho := sd₂.data.tstampTcpEcho } }

instance (sd₁ sd₂ : SendData) : Decidable (SameButTstamps sd₁ sd₂) :=
  inferInstanceAs (Decidable (_ = _))

theorem SameButTstamps.seqs {sd₁ sd₂ : SendData} (h : SameButTstamps sd₁ sd₂) :
    sd₁.data.seq = sd₂.data.seq ∧ sd₁.data.endSeq = sd₂.data.endSeq := by
  unfold SameButTstamps at h
  rw [h]
  exact ⟨rfl, rfl⟩

theorem forall_data_of_sameButTstamps {sds₁ sds₂ : List SendData}
    (hsds : List.Forall₂ SameButTstamps sds₁ sds₂)
    (hdata : ∀ sd ∈ sds₁, sd.data.seq < sd.data.endSeq) :
    ∀ sd ∈ sds₂, sd.data.seq < sd.data.endSeq := by
  induction hsds with
  | nil => exact hdata
  | cons hsd _ ih =>
      obtain ⟨hlt, hdata⟩ := List.forall_mem_cons.mp hdata
      obtain ⟨hseq, hend⟩ := hsd.seqs
      rw [List.forall_mem_cons, ← hseq, ← hend]
      exact ⟨hlt, ih hdata⟩

section Runs

variable {rm rm₁ rm₂ : RangeManager}

theorem insertReceivedRange_ok_iff {sd : SendData} (hapart : rm.Apart)
    (hlt : sd.data.seq < sd.data.endSeq) :
    (∃ rm', rm.insertReceivedRange sd = .ok rm') ↔ ReceivesAll rm sd := by
  have hloop : (∃ res, insertLoop sd.data.endSeq .recv (receivedSeg sd)
      (sd.data.endSeq - sd.data.seq + recursionLevel + 2) rm sd.data.seq 0 = .ok res) ↔
      RunsThrough rm (receivedSeg sd).tstampTcp 0 sd.data.seq sd.data.endSeq :=
    insertLoop_recv_ok_iff hapart hlt (by omega) (Nat.zero_le _) (.inl rfl)
  rw [show ReceivesAll rm sd = RunsThrough rm (receivedSeg sd).tstampTcp 0 sd.data.seq sd.data.endSeq
    from rfl, ← hloop]
  constructor
  · rintro ⟨rm', h⟩
    obtain ⟨res, hins, -⟩ := Run.exists_of_bind_ok h
    exact ⟨res, hins⟩
  · rintro ⟨⟨rm', ret⟩, hins⟩
    refine ⟨rm', ?_⟩
    have hins' : rm.insertByteRange (receivedSeg sd).seq (receivedSeg sd).endSeq .recv
        (receivedSeg sd) 0 = .ok (rm', ret) := hins
    unfold insertReceivedRange
    dsimp only
    rw [hins']
    rfl

theorem insertReceivedRange_receipts {rm₁' rm₂' : RangeManager} {sd₁ sd₂ : SendData}
    (hapart₁ : rm₁.Apart) (hapart₂ : rm₂.Apart) (hlast : rm₁.lastSeq = rm₂.lastSeq)
    (hsame : receipts rm₁.ranges.entries = receipts rm₂.ranges.entries)
    (hsd : SameButTstamps sd₁ sd₂) (hlt : sd₁.data.seq < sd₁.data.endSeq)
    (h₁ : rm₁.insertReceivedRange sd₁ = .ok rm₁') (h₂ : rm₂.insertReceivedRange sd₂ = .ok rm₂') :
    rm₁'.Apart ∧ rm₂'.Apart ∧ rm₁'.lastSeq = rm₂'.lastSeq ∧
      receipts rm₁'.ranges.entries = receipts rm₂'.ranges.entries := by
  obtain ⟨⟨rm₁₁, ret₁⟩, hins₁, hrm₁⟩ := Run.exists_of_bind_ok h₁
  obtain rfl : rm₁₁ = rm₁' := Except.ok.inj hrm₁
  obtain ⟨⟨rm₂₂, ret₂⟩, hins₂, hrm₂⟩ := Run.exists_of_bind_ok h₂
  obtain rfl : rm₂₂ = rm₂' := Except.ok.inj hrm₂
  obtain ⟨hseq, hend⟩ := hsd.seqs
  have hins₂' : rm₂.insertByteRange sd₁.data.seq sd₁.data.endSeq .recv (receivedSeg sd₂) 0 =
      .ok (rm₂₂, ret₂) := by
    rw [hseq, hend]
    exact hins₂
  exact insertLoop_receipts hapart₁ hapart₂ hlt hlast hsame hins₁ hins₂'

theorem insertReceivedRange_run_receipts {rm₁' rm₂' : RangeManager} {sds₁ sds₂ : List SendData}
    (hsds : List.Forall₂ SameButTstamps sds₁ sds₂)
    (hdata : ∀ sd ∈ sds₁, sd.data.seq < sd.data.endSeq) (hapart₁ : rm₁.Apart)
    (hapart₂ : rm₂.Apart) (hlast : rm₁.lastSeq = rm₂.lastSeq)
    (hsame : receipts rm₁.ranges.entries = receipts rm₂.ranges.entries)
    (h₁ : Run.run insertReceivedRange rm₁ sds₁ = .ok rm₁')
    (h₂ : Run.run insertReceivedRange rm₂ sds₂ = .ok rm₂') :
    receipts rm₁'.ranges.entries = receipts rm₂'.ranges.entries := by
  induction hsds generalizing rm₁ rm₂ with
  | nil =>
      obtain rfl := Except.ok.inj h₁
      obtain rfl := Except.ok.inj h₂
      exact hsame
  | cons hsd _ ih =>
      obtain ⟨hlt, hdata⟩ := List.forall_mem_cons.mp hdata
      obtain ⟨rm₁₁, hstep₁, hrun₁⟩ := Run.exists_of_run_cons h₁
      obtain ⟨rm₂₂, hstep₂, hrun₂⟩ := Run.exists_of_run_cons h₂
      obtain ⟨hapart₁', hapart₂', hlast', hsame'⟩ :=
        insertReceivedRange_receipts hapart₁ hapart₂ hlast hsame hsd hlt hstep₁ hstep₂
      exact ih hdata hapart₁' hapart₂' hlast' hsame' hrun₁ hrun₂

theorem insertReceivedRange_run_ok_iff {sds : List SendData} (hapart : rm.Apart)
    (hdata : ∀ sd ∈ sds, sd.data.seq < sd.data.endSeq) :
    (∃ rm', Run.run insertReceivedRange rm sds = .ok rm') ↔
      Run.Steps insertReceivedRange ReceivesAll rm sds := by
  refine Run.exists_ok_iff (I := Apart) (P := fun sd => sd.data.seq < sd.data.endSeq)
    (fun rm sd rm' hinv hlt hstep => ?_) (fun rm sd hinv hlt => insertReceivedRange_ok_iff hinv hlt)
    hapart hdata
  have hself : SameButTstamps sd sd := rfl
  exact (insertReceivedRange_receipts hinv hinv rfl rfl hself hlt hstep hstep).1

/-- On a well-formed map, two receiver traces that differ in the TCP timestamps only leave the same
ranges with the same counts, and no assertion fails, exactly when in both of them every segment runs
through. -/
theorem insertReceivedRange_run_tstamps_iff {sds₁ sds₂ : List SendData} (hwf : rm.WellFormed)
    (hdata : ∀ sd ∈ sds₁, sd.data.seq < sd.data.endSeq)
    (hsds : List.Forall₂ SameButTstamps sds₁ sds₂) :
    (∃ rm₁ rm₂, Run.run insertReceivedRange rm sds₁ = .ok rm₁ ∧
        Run.run insertReceivedRange rm sds₂ = .ok rm₂ ∧
        receipts rm₁.ranges.entries = receipts rm₂.ranges.entries) ↔
      Run.Steps insertReceivedRange ReceivesAll rm sds₁ ∧
        Run.Steps insertReceivedRange ReceivesAll rm sds₂ := by
  have hdata₂ := forall_data_of_sameButTstamps hsds hdata
  rw [← insertReceivedRange_run_ok_iff hwf.apart hdata,
    ← insertReceivedRange_run_ok_iff hwf.apart hdata₂]
  constructor
  · rintro ⟨rm₁, rm₂, h₁, h₂, -⟩
    exact ⟨⟨rm₁, h₁⟩, ⟨rm₂, h₂⟩⟩
  · rintro ⟨⟨rm₁, h₁⟩, ⟨rm₂, h₂⟩⟩
    refine ⟨rm₁, rm₂, h₁, h₂, ?_⟩
    exact insertReceivedRange_run_receipts hsds hdata hwf.apart hwf.apart rfl rfl h₁ h₂

end Runs

/-- Ten bytes that were sent in two segments. -/
def twoFives : RangeManager :=
  { new 0 with
    ranges := (OrdMap.empty.insert 0 (freshRange { endSeq := 5, payloadSize := 5 } 0 5)).insert 5
      (freshRange { seq := 5, endSeq := 10, payloadSize := 5 } 5 10)
    lastSeq := 10 }

theorem twoFives_wellFormed : twoFives.WellFormed := by
  refine ⟨?_, by decide⟩
  intro en hen
  rcases List.mem_cons.mp hen with rfl | hen
  · exact ⟨rfl, rfl, by decide⟩
  · obtain rfl := List.mem_singleton.mp hen
    exact ⟨rfl, rfl, by decide⟩

/-- All ten bytes in one segment, and two of them again. -/
def joined (tstampTcp tstampTcp' : ℕ) : List SendData :=
  [{ data := { seq := 0, endSeq := 10, payloadSize := 10, tstampTcp := tstampTcp } },
    { data := { seq := 2, endSeq := 4, payloadSize := 2, tstampTcp := tstampTcp' } }]

theorem insertReceivedRange_run_tstamps_iff_joined :
    ∃ rm₁ rm₂, Run.run insertReceivedRange twoFives (joined 7 8) = .ok rm₁ ∧
      Run.run insertReceivedRange twoFives (joined 9 0) = .ok rm₂ ∧
      receipts rm₁.ranges.entries = receipts rm₂.ranges.entries := by
  have hsame : List.Forall₂ SameButTstamps (joined 7 8) (joined 9 0) :=
    .cons (by decide) (.cons (by decide) .nil)
  have hiff := insertReceivedRange_run_tstamps_iff twoFives_wellFormed (by decide) hsame
  exact hiff.mpr (by decide)

/-- Without the timestamp option the same bytes fail the assertion. -/
theorem insertReceivedRange_asserts_tstamp :
    (Run.run insertReceivedRange twoFives (joined 7 8)).toOption.isSome = true ∧
      Run.run insertReceivedRange twoFives (joined 0 0) = .error .receivedTstamp ∧
      ¬∃ rm₁ rm₂, Run.run insertReceivedRange twoFives (joined 7 8) = .ok rm₁ ∧
        Run.run insertReceivedRange twoFives (joined 0 0) = .ok rm₂ ∧
        receipts rm₁.ranges.entries = receipts rm₂.ranges.entries := by
  have hval : (match Run.run insertReceivedRange twoFives (joined 0 0) with
      | .error err => some err
      | .ok _ => none) = some .receivedTstamp := by decide
  have hfails : Run.run insertReceivedRange twoFives (joined 0 0) = .error .receivedTstamp := by
    cases hrun : Run.run insertReceivedRange twoFives (joined 0 0) with
    | error err =>
        rw [hrun] at hval
        rw [Option.some.inj hval]
    | ok rm =>
        rw [hrun] at hval
        cases hval
  refine ⟨by decide, hfails, ?_⟩
  rintro ⟨rm₁, rm₂, -, h, -⟩
  rw [hfails] at h
  cases h

end RangeManager

end AnalyseTCP
