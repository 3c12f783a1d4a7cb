import AnalyseTCP.SendAckTimes

/-!
# ACKs and received data only refine the partition

The sent packets fix which bytes the map holds and what is counted for each of them.  An ACK or a
received segment cuts ranges where it ends and marks the parts, but adds no byte, loses none and
leaves the send counters of every byte alone.
-/

namespace AnalyseTCP

namespace RangeManager

/-- What the sent packets have counted for the bytes of a range. -/
def sendCounts (r : ByteRange) : Counter 8 × Counter 8 := (r.dataSentCount, r.dataRetransCount)

/-- The sent packets charged to a range. -/
def chargedPackets (r : ByteRange) : ℕ :=
  r.packetSentCount.val + r.packetRetransCount.val + r.ackedSent.val

/-- The range is part of `o`, with its send counts. -/
structure PartOf (r o : ByteRange) : Prop where
  start_le : o.startSeq ≤ r.startSeq
  le_end : r.endSeq ≤ o.endSeq
  counts : sendCounts r = sendCounts o

theorem PartOf.trans {r o p : ByteRange} (h : PartOf r o) (h' : PartOf o p) : PartOf r p :=
  ⟨h'.start_le.trans h.start_le, h.le_end.trans h'.le_end, h.counts.trans h'.counts⟩

/-- The entries `l'` are those of `l`, cut further. -/
structure Refined (l l' : List Entry) : Prop where
  part : ∀ en ∈ l', ∃ o ∈ l, PartOf en.2 o.2
  covered : ∀ x, Covered l' x ↔ Covered l x
  packets : (l'.map fun en => chargedPackets en.2).sum = (l.map fun en => chargedPackets en.2).sum

namespace Refined

variable {l l' l'' l₁ l₁' l₂ l₂' : List Entry}

theorem refl (l : List Entry) : Refined l l :=
  ⟨fun en hen => ⟨en, hen, le_rfl, le_rfl, rfl⟩, fun _ => Iff.rfl, rfl⟩

theorem trans (h : Refined l l') (h' : Refined l' l'') : Refined l l'' := by
  refine ⟨fun en hen => ?_, fun x => (h'.covered x).trans (h.covered x),
    h'.packets.trans h.packets⟩
  obtain ⟨o, ho, hpart⟩ := h'.part en hen
  obtain ⟨p, hp, hpart'⟩ := h.part o ho
  exact ⟨p, hp, hpart.trans hpart'⟩

theorem append (h₁ : Refined l₁ l₁') (h₂ : Refined l₂ l₂') :
    Refined (l₁ ++ l₂) (l₁' ++ l₂') := by
  refine ⟨fun en hen => ?_, fun x => ?_, ?_⟩
  · rcases List.mem_append.mp hen with hen | hen
    · obtain ⟨o, ho, hpart⟩ := h₁.part en hen
      exact ⟨o, List.mem_append_left _ ho, hpart⟩
    · obtain ⟨o, ho, hpart⟩ := h₂.part en hen
      exact ⟨o, List.mem_append_right _ ho, hpart⟩
  · rw [covered_append, covered_append, h₁.covered, h₂.covered]
  · simp only [List.map_append, List.sum_append, h₁.packets, h₂.packets]

theorem cons (en : Entry) (h : Refined l l') : Refined (en :: l) (en :: l') :=
  (refl [en]).append h

/-- A range that is only marked. -/
theorem mark {key : ℕ} {r r' : ByteRange} (hstart : r'.startSeq = r.startSeq)
    (hend : r'.endSeq = r.endSeq) (hcounts : sendCounts r' = sendCounts r)
    (hpackets : chargedPackets r' = chargedPackets r) : Refined [(key, r)] [(key, r')] := by
  refine ⟨fun en hen => ?_, fun x => ?_, ?_⟩
  · obtain rfl := List.mem_singleton.mp hen
    exact ⟨_, List.mem_singleton_self _, hstart.ge, hend.le, hcounts⟩
  · unfold Covered ByteRange.Holds
    simp only [List.mem_singleton, exists_eq_left, hstart, hend]
  · show chargedPackets r' + 0 = chargedPackets r + 0
    rw [hpackets]

/-- A range that is cut at `c`: the head keeps the packets. -/
theorem cut {key : ℕ} {r : ByteRange} {c : ℕ} (hlo : r.startSeq ≤ c) (hhi : c ≤ r.endSeq) :
    Refined [(key, r)] [(key, r.head c), (c, r.tail c)] := by
  refine ⟨fun en hen => ?_, fun x => ?_, ?_⟩
  · rcases List.mem_cons.mp hen with rfl | hen
    · exact ⟨_, List.mem_singleton_self _, le_rfl, hhi, rfl⟩
    · obtain rfl := List.mem_singleton.mp hen
      exact ⟨_, List.mem_singleton_self _, hlo, le_rfl, rfl⟩
  · unfold Covered ByteRange.Holds
    simp only [List.mem_cons, List.not_mem_nil, or_false, exists_eq_or_imp, exists_eq_left,
      ByteRange.head_startSeq, ByteRange.head_endSeq, ByteRange.tail_startSeq,
      ByteRange.tail_endSeq]
    omega
  · rfl

end Refined

/-! ## Marks -/

section Marks

variable (seg : DataSeg) (level s : ℕ) (rdb : Bool) (r : ByteRange)

theorem sendCounts_recordRecv : sendCounts (recordRecv seg level r) = sendCounts r :=
  recordRecv_blind seg level r fun _ _ _ _ => rfl

theorem chargedPackets_recordRecv :
    chargedPackets (recordRecv seg level r) = chargedPackets r :=
  recordRecv_blind seg level r fun _ _ _ _ => rfl

theorem refined_recordRecv (key : ℕ) : Refined [(key, r)] [(key, recordRecv seg level r)] :=
  .mark (recordRecv_startSeq seg level r) (recordRecv_endSeq seg level r)
    (sendCounts_recordRecv seg level r) (chargedPackets_recordRecv seg level r)

theorem refined_finSet (key : ℕ) : Refined [(key, r)] [(key, finSet seg r)] :=
  .mark (finSet_startSeq seg r) (finSet_endSeq seg r) (finSet_blind seg r fun _ _ => rfl)
    (finSet_blind seg r fun _ _ => rfl)

theorem refined_ackExact (key : ℕ) (b : Bool) : Refined [(key, r)] [(key, ackExact seg b r)] := by
  refine .mark (ackExact_startSeq seg r b) (ackExact_endSeq seg r b) ?_ ?_
  · exact ackExact_blind seg r sendCounts b (fun _ _ => rfl) (fun _ _ => rfl) (fun _ => rfl)
      (fun _ => rfl) fun _ _ => rfl
  · exact ackExact_blind seg r chargedPackets b (fun _ _ => rfl) (fun _ _ => rfl) (fun _ => rfl)
      (fun _ => rfl) fun _ _ => rfl

theorem refined_markAcked (key : ℕ) : Refined [(key, r)] [(key, markAcked seg r)] := by
  unfold markAcked
  split
  · exact .refl _
  · exact .mark rfl rfl rfl rfl

end Marks

/-! ## ACKs -/

theorem AckPass.refined {seg : DataSeg} {c c' : Option ℕ} {rest rest' : List Entry}
    (hpass : AckPass seg c rest c' rest') : Refined rest rest' := by
  induction hpass with
  | done => exact .refl _
  | exact c key r rest _ => exact (refined_ackExact seg r key _).append (.refl rest)
  | late | old => exact .refl _
  | pass c c' key r rest rest' _ _ ih => exact (refined_markAcked seg r key).append ih
  | split c key r rest hlo hhi =>
      have hcut : Refined [(key, r)] [(key, r.head seg.ack), (seg.ack, r.tail seg.ack)] :=
        .cut hlo.le hhi.le
      have hmark : Refined [(key, r.head seg.ack)] [(key, ackPart seg (r.head seg.ack))] :=
        .mark rfl rfl rfl rfl
      exact (hcut.trans (hmark.append (.refl _))).append (.refl rest)

theorem refined_countAt (okey : Option ℕ) (l : List Entry) : Refined l (l.map (countAt okey)) := by
  induction l with
  | nil => exact .refl _
  | cons en l ih =>
      have hmark : Refined [en] [countAt okey en] := by
        unfold countAt
        split
        · exact .mark rfl rfl rfl rfl
        · exact .refl _
      exact hmark.append ih

theorem processAck_refined {rm rm' : RangeManager} {seg : DataSeg} {ret : Bool} (hinv : rm.Apart)
    (h : rm.processAck seg = .ok (rm', ret)) :
    rm'.Apart ∧ Refined rm.ranges.entries rm'.ranges.entries := by
  obtain ⟨pre, rest', okey, hp⟩ := processAck_processed hinv.1 hinv.2 h
  have hstep : ackStep rm seg = .ok rm' := by
    unfold ackStep
    rw [h]
    rfl
  refine ⟨(ackStep_apart hinv hstep).1, ?_⟩
  rw [hp.cut, hp.entries]
  exact ((Refined.refl pre).append hp.pass.refined).trans (refined_countAt okey _)

/-! ## Received data -/

section Recv

variable {lastSeq : ℕ} {seg : DataSeg} {level s e : ℕ} {pre post old new : List Entry}
  {next : Option ℕ}

theorem Pass.refined (hpass : Pass lastSeq .recv seg level s e pre post old new next)
    (hwf : WfEntries old) (hlt : s < e) : Refined old new := by
  have hkey : ∀ key r, (key, r) ∈ old → key = r.startSeq := fun key r h => (hwf _ h).1
  -- a cut, then the record on one of its parts
  cases hpass with
  | fresh hitype => cases hitype
  | reuse r c hitype => cases hitype
  | missing => exact .refl _
  | whole r => exact refined_recordRecv seg level r s
  | span r => exact refined_recordRecv seg level r s
  | front r hend =>
      have hstart := hkey s r (List.mem_singleton_self _)
      have hcut : Refined [(s, r)] [(s, r.head e), (e, r.tail e)] := .cut (by omega) hend.le
      exact hcut.trans ((refined_recordRecv seg level (r.head e) s).append (.refl _))
  | back key r hlow hlo hend =>
      have hstart := hkey key r (List.mem_singleton_self _)
      have hcut : Refined [(key, r)] [(key, r.head s), (s, r.tail s)] := .cut (by omega) hlo.le
      have hmark : Refined [(s, r.tail s)] [(s, recordRecv seg level (finSet seg (r.tail s)))] :=
        (refined_finSet seg (r.tail s) s).trans (refined_recordRecv seg level _ s)
      exact hcut.trans (.cons _ hmark)
  | beyond key r hlow hlo hend =>
      have hstart := hkey key r (List.mem_singleton_self _)
      have hcut : Refined [(key, r)] [(key, r.head s), (s, r.tail s)] := .cut (by omega) hlo.le
      exact hcut.trans (.cons _ (refined_recordRecv seg level (r.tail s) s))
  | middle key r hlow hend =>
      have hstart := hkey key r (List.mem_singleton_self _)
      have hcut : Refined [(key, r)] [(key, r.head s), (s, r.tail s)] :=
        .cut (by omega) (hlt.trans hend).le
      have hcut' : Refined [(s, r.tail s)] [(s, (r.tail s).head e), (e, (r.tail s).tail e)] :=
        .cut hlt.le hend.le
      have hmark : Refined [(s, (r.tail s).head e)]
          [(s, recordRecv seg level (finSet seg ((r.tail s).head e)))] :=
        (refined_finSet seg _ s).trans (refined_recordRecv seg level _ s)
      exact hcut.trans (.cons _ (hcut'.trans (hmark.append (.refl _))))

/-- What the passes over received data must keep: `Inv l s` before a pass at `s`, `Post` after the
last one. -/
def RecvKeeps (lastSeq : ℕ) (seg : DataSeg) (e : ℕ) (Inv : List Entry → ℕ → Prop)
    (Post : List Entry → Prop) : Prop :=
  ∀ s level pre old new post next, WfEntries (pre ++ old ++ post) →
    Separated (pre ++ old ++ post) → s < e → Inv (pre ++ old ++ post) s →
    Pass lastSeq .recv seg level s e pre post old new next →
    (next = none → Post (pre ++ new ++ post)) ∧ ∀ s', next = some s' → Inv (pre ++ new ++ post) s'

/-- Received data on any map with ranges apart.  A range without bytes at the start of a pass would
be visited for ever, so an insertion that returns meets none. -/
theorem insertLoop_recv {Inv : List Entry → ℕ → Prop} {Post : List Entry → Prop}
    {rm rm' : RangeManager} {fuel : ℕ} {ret : Bool}
    (hkeeps : RecvKeeps rm.lastSeq seg e Inv Post) (hapart : rm.Apart) (hlt : s < e)
    (hinv : Inv rm.ranges.entries s)
    (h : insertLoop e .recv seg fuel rm s level = .ok (rm', ret)) :
    rm'.Apart ∧ Post rm'.ranges.entries := by
  induction fuel generalizing rm s level with
  | zero => cases h
  | succ fuel ih =>
      have hbytes : ∀ en ∈ rm.ranges.entries, en.1 = s → en.2.endSeq ≠ s := by
        rintro ⟨key, r⟩ hen rfl hempty
        exact insertLoop_stuck (OrdMap.find?_eq_some_iff.mpr hen) hempty hlt h
      have hrecv : InsertType.recv ≠ .sojourn := by simp
      have hstep : ∀ {out}, rm.insertBody s e .recv seg level = .ok out →
          OnlyRanges rm out.rm ∧ out.rm.Apart ∧
            (out.next = none → Post out.rm.ranges.entries) ∧
            ∀ s', out.next = some s' → s' < e ∧ Inv out.rm.ranges.entries s' := by
        intro out hbody
        obtain ⟨pre, old, new, post, hold, hframe, hnew, hpass⟩ :=
          insertBody_passes hapart.1 hapart.2 hlt (fun h => by cases h) hrecv (fun _ => hbytes) hbody
        obtain ⟨hwf, hsep⟩ := hapart
        rw [hold] at hwf hsep hinv
        obtain ⟨hdone, hagain⟩ := hkeeps s level pre old new post out.next hwf hsep hlt hinv hpass
        have hapart' : out.rm.Apart := hpass.apart hwf hsep hlt (fun h => by cases h) hnew
        rw [hnew]
        exact ⟨hframe, hapart', hdone, fun s' hs' => ⟨(hpass.next_bounds hs').2, hagain s' hs'⟩⟩
      rw [insertLoop] at h
      split at h
      · cases h
      · next hbody =>
          obtain ⟨rfl, rfl⟩ := Prod.mk.inj (Except.ok.inj h)
          obtain ⟨-, hapart', hdone, -⟩ := hstep hbody
          exact ⟨hapart', hdone rfl⟩
      · next rm₁ s₁ hbody =>
          obtain ⟨hframe, hapart', -, hagain⟩ := hstep hbody
          obtain ⟨hhi, hinv'⟩ := hagain s₁ rfl
          rw [← OnlyRanges.lastSeq hframe] at hkeeps
          exact ih hkeeps hapart' hhi hinv' h

theorem recvKeeps_refined (lastSeq : ℕ) (seg : DataSeg) (e : ℕ) (l₀ : List Entry) :
    RecvKeeps lastSeq seg e (fun l _ => Refined l₀ l) (Refined l₀) := by
  intro s level pre old new post next hwf _ hlt hinv hpass
  have hwfold : WfEntries old := (wfEntries_append.mp (wfEntries_append.mp hwf).1).2
  have hstep : Refined (pre ++ old ++ post) (pre ++ new ++ post) :=
    ((Refined.refl pre).append (hpass.refined hwfold hlt)).append (.refl post)
  exact ⟨fun _ => hinv.trans hstep, fun _ _ => hinv.trans hstep⟩

end Recv

/-! ## Both calls -/

/-- In a well-formed map, ranges that do not overlap the next one overlap none. -/
theorem separated_of_isChain {l : List Entry} (hwf : WfEntries l)
    (hchain : l.IsChain fun a b => a.2.endSeq ≤ b.2.startSeq) : Separated l := by
  induction l with
  | nil => exact separated_nil
  | cons a l ih =>
      obtain ⟨-, hwf'⟩ := wfEntries_cons.mp hwf
      have hsep := ih hwf' hchain.tail
      refine separated_cons.mpr ⟨fun b hb => ?_, hsep⟩
      cases l with
      | nil => cases hb
      | cons d l =>
          have hnext : a.2.endSeq ≤ d.2.startSeq := (List.isChain_cons_cons.mp hchain).1
          rcases List.mem_cons.mp hb with rfl | hb
          · exact hnext
          · have hd : d.2.startSeq ≤ d.2.endSeq := (hwf' d List.mem_cons_self).2.le
            have hlater : d.2.endSeq ≤ b.2.startSeq := (separated_cons.mp hsep).1 b hb
            omega

/-- A well-formed range map. -/
structure WellFormed (rm : RangeManager) : Prop where
  wf : WfEntries rm.ranges.entries
  disjoint : rm.Disjoint

theorem WellFormed.apart {rm : RangeManager} (h : rm.WellFormed) : rm.Apart :=
  ⟨h.wf, separated_of_isChain h.wf h.disjoint⟩

/-- The map of `rm'` refines that of `rm`: every byte is still held, by a part of the range that
held it, with the same send counts, and no packet is counted twice or lost. -/
structure Refines (rm rm' : RangeManager) : Prop where
  wellFormed : rm'.WellFormed
  covered : ∀ x, Covered rm'.ranges.entries x ↔ Covered rm.ranges.entries x
  part : ∀ en ∈ rm'.ranges.entries, ∃ o ∈ rm.ranges.entries,
    o.2.startSeq ≤ en.2.startSeq ∧ en.2.endSeq ≤ o.2.endSeq
  counts : ∀ x, ∀ en ∈ rm'.ranges.entries, ∀ o ∈ rm.ranges.entries, en.2.Holds x → o.2.Holds x →
    en.2.dataSentCount.val = o.2.dataSentCount.val ∧
      en.2.dataRetransCount.val = o.2.dataRetransCount.val
  packets : (rm'.ranges.entries.map fun en =>
      en.2.packetSentCount.val + en.2.packetRetransCount.val + en.2.ackedSent.val).sum =
    (rm.ranges.entries.map fun en =>
      en.2.packetSentCount.val + en.2.packetRetransCount.val + en.2.ackedSent.val).sum

theorem refines_of_refined {rm rm' : RangeManager} (hinv : rm.Apart) (hinv' : rm'.Apart)
    (h : Refined rm.ranges.entries rm'.ranges.entries) : Refines rm rm' where
  wellFormed := ⟨hinv'.1, hinv'.disjoint⟩
  covered := h.covered
  part en hen := by
    obtain ⟨o, ho, hpart⟩ := h.part en hen
    exact ⟨o, ho, hpart.start_le, hpart.le_end⟩
  counts x en hen o ho hx hox := by
    obtain ⟨p, hp, hpart⟩ := h.part en hen
    have hpx : p.2.Holds x := ⟨hpart.start_le.trans hx.1, hx.2.trans_le hpart.le_end⟩
    -- only one range of the old map holds the byte
    obtain rfl := eq_of_holds hinv.2 hp ho hpx hox
    have hcounts : (en.2.dataSentCount, en.2.dataRetransCount) =
        (p.2.dataSentCount, p.2.dataRetransCount) := hpart.counts
    rw [(Prod.mk.inj hcounts).1, (Prod.mk.inj hcounts).2]
    exact ⟨rfl, rfl⟩
  packets := h.packets

/-- ACKs and received data refine every well-formed map. -/
theorem processAck_insertRecv_refines {rm rm' : RangeManager} {seg : DataSeg} {ret : Bool}
    (hinv : rm.WellFormed) :
    (rm.processAck seg = .ok (rm', ret) → Refines rm rm') ∧
      ∀ s e level, s < e → rm.insertByteRange s e .recv seg level = .ok (rm', ret) →
        Refines rm rm' := by
  constructor
  · intro h
    obtain ⟨hapart, hrefined⟩ := processAck_refined hinv.apart h
    exact refines_of_refined hinv.apart hapart hrefined
  · intro s e level hlt h
    obtain ⟨hapart, hrefined⟩ :=
      insertLoop_recv (recvKeeps_refined _ seg e _) hinv.apart hlt (.refl _) h
    exact refines_of_refined hinv.apart hapart hrefined

/-- Ten bytes sent at time 1. -/
def tenBytes : RangeManager :=
  { new 0 with
    ranges := OrdMap.empty.insert 0 (freshRange
      { seq := 0, endSeq := 10, payloadSize := 10, tstampPcap := ⟨1, 0⟩ } 0 10)
    lastSeq := 10 }

theorem tenBytes_wellFormed : tenBytes.WellFormed := by
  refine ⟨?_, by decide⟩
  intro en hen
  obtain rfl := List.mem_singleton.mp hen
  exact ⟨rfl, rfl, by decide⟩

/-- An ACK of the first four bytes, and a segment with the bytes from 2 to 6, both at time 2. -/
def refiningSeg : DataSeg :=
  { seq := 2, endSeq := 6, payloadSize := 4, ack := 4, tstampPcap := ⟨2, 0⟩, tstampTcp := 7 }

theorem processAck_insertRecv_refines_ten :
    (∃ rm' ret, tenBytes.processAck refiningSeg = .ok (rm', ret) ∧ Refines tenBytes rm') ∧
      ∃ rm' ret, tenBytes.insertByteRange 2 6 .recv refiningSeg 0 = .ok (rm', ret) ∧
        Refines tenBytes rm' := by
  have hinv := tenBytes_wellFormed
  constructor
  · obtain ⟨⟨rm', ret⟩, hack, -⟩ := Run.exists_of_any_toOption
      (x := tenBytes.processAck refiningSeg) (p := fun _ => true) (by decide)
    exact ⟨rm', ret, hack, (processAck_insertRecv_refines hinv).1 hack⟩
  · obtain ⟨⟨rm', ret⟩, hrecv, -⟩ := Run.exists_of_any_toOption
      (x := tenBytes.insertByteRange 2 6 .recv refiningSeg 0) (p := fun _ => true) (by decide)
    exact ⟨rm', ret, hrecv, (processAck_insertRecv_refines hinv).2 2 6 0 (by decide) hrecv⟩

end RangeManager

end AnalyseTCP
