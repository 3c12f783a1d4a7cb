import AnalyseTCP.Disjointness
import AnalyseTCP.ByteCounts

/-!
# Transmission counts on gap-free traces

On a trace whose data segments start at or below `lastSeq` and whose pure ACKs sit at `lastSeq`, the
ranges with bytes tile everything sent so far, and every byte is counted once per segment that
carried it.
-/

namespace AnalyseTCP

namespace RangeManager

def sentCount (r : ByteRange) : ℕ := r.dataSentCount.total

section Record

variable (seg : DataSeg) (level : ℕ) (rdb : Bool) (r : ByteRange)

theorem sentCount_recordSent {sentT : SentType} (h : sentT ≠ .pureAck) (h' : sentT ≠ .rst) :
    sentCount (recordSent seg rdb sentT r) = sentCount r + 1 := by
  simp [sentCount, recordSent, ByteRange.increaseSent, h, h']

theorem sentCount_recordSentFound :
    sentCount (recordSentFound seg level rdb r) = sentCount r + 1 := by
  rw [recordSentFound_blind seg level rdb r (f := sentCount) fun _ _ => rfl]
  have hack : foundType seg level ≠ .pureAck := by unfold foundType; split_ifs <;> simp
  have hrst : foundType seg level ≠ .rst := by unfold foundType; split_ifs <;> simp
  exact sentCount_recordSent seg rdb r hack hrst

end Record

theorem countsBytes_sent (seg : DataSeg) : CountsBytes sentCount .sent seg 1 where
  head _ _ := rfl
  tail _ _ := rfl
  finSet r := finSet_blind seg r fun _ _ => rfl
  recordSplit level rdb r := by
    change sentCount (recordSent seg rdb _ r) = _
    apply sentCount_recordSent <;> split_ifs <;> simp
  recordFound level rdb r := sentCount_recordSentFound seg level rdb r
  wholeRange level s r :=
    (wholeRange_blind .sent seg level s r fun _ _ => rfl).trans
      (sentCount_recordSentFound seg level _ r)
  freshRange _ s e := by
    unfold freshRange
    rw [finSet_blind seg _ (f := sentCount) fun _ _ => rfl, sentCount_recordSent]
    · rfl
    · split_ifs <;> simp
    · split_ifs <;> simp
  reusedRange _ s c r := rfl

/-! ## The tiling -/

/-- The ranges with bytes tile `[b₀, L)`.  Ranges without bytes sit at the end, where only pure ACKs
were registered, or below `b₀`. -/
structure Tiled (b₀ L : ℕ) (l : List Entry) : Prop where
  cover : ∀ x, Covered l x ↔ b₀ ≤ x ∧ x < L
  keys : ∀ en ∈ l, en.1 ≤ L
  empties : ∀ en ∈ l, en.2.endSeq = en.2.startSeq →
    (en.1 = L ∧ sentCount en.2 = 0) ∨ en.1 < b₀

section Pass

variable {L b₀ : ℕ} {seg : DataSeg} {level s e : ℕ} {pre post old new : List Entry}
  {next : Option ℕ}

theorem Tiled.endSeq_le {l : List Entry} (h : Tiled b₀ L l) (en : Entry) (hen : en ∈ l)
    (hbytes : en.2.startSeq < en.2.endSeq) : en.2.endSeq ≤ L := by
  have hcov : Covered l (en.2.endSeq - 1) := ⟨en, hen, by unfold ByteRange.Holds; omega⟩
  have := (h.cover _).mp hcov
  omega

theorem Tiled.old_empty (h : Tiled b₀ L (pre ++ old ++ post))
    (hready : Ready L .sent e (pre ++ old ++ post) s) (hs : b₀ ≤ s)
    (hpass : Pass L .sent seg level s e pre post old new next) {en : Entry} (hen : en ∈ old)
    (hempty : en.2.endSeq = en.2.startSeq) : s = L ∧ sentCount en.2 = 0 := by
  have hwf := (wfEntries_append.mp (wfEntries_append.mp hready.wf).1).2
  have hkey := hpass.old_empty hwf hready.lt hen hempty
  rcases h.empties en (by simp [hen]) hempty with ⟨hL, hcnt⟩ | hlow
  · exact ⟨hkey.symm.trans hL, hcnt⟩
  · omega

/-- Where a pass continues, it has not left the tiling. -/
theorem Tiled.next_le (h : Tiled b₀ L (pre ++ old ++ post)) (hwf : WfEntries (pre ++ old ++ post))
    {s' : ℕ} (hcont : Continues pre old new post s s') : s' ≤ L := by
  rcases hcont.reached with ⟨en, hen, rfl⟩ | ⟨en, hen, rfl⟩
  · have hkey := (hwf en (by simp [hen])).1
    have hlt := (hcont.old_le en hen).1
    exact h.endSeq_le en (by simp [hen]) (by omega)
  · exact h.keys en (by simp [hen])

/-- Only the last pass uses a range without bytes. -/
theorem Tiled.old_bytes (h : Tiled b₀ L (pre ++ old ++ post))
    (hready : Ready L .sent e (pre ++ old ++ post) s) (hs : b₀ ≤ s)
    (hpass : Pass L .sent seg level s e pre post old new next) {s' : ℕ}
    (hnext : next = some s') : ∀ en ∈ old, en.2.startSeq < en.2.endSeq := by
  intro en hen
  have hle := h.next_le hready.wf (hpass.continues hready.wf hready.sep hnext)
  have hlt := (hpass.next_bounds hnext).1
  have hwf := (hready.wf en (by simp [hen])).2.le
  by_contra hempty
  have := (h.old_empty hready hs hpass hen (by omega)).1
  omega

theorem Pass.tiled_next (hpass : Pass L .sent seg level s e pre post old new next)
    (hready : Ready L .sent e (pre ++ old ++ post) s) (h : Tiled b₀ L (pre ++ old ++ post))
    (hs : b₀ ≤ s) {s' : ℕ} (hnext : next = some s') : Tiled b₀ L (pre ++ new ++ post) := by
  have hcont := hpass.continues hready.wf hready.sep hnext
  have hle := h.next_le hready.wf hcont
  have hwf := (wfEntries_append.mp (wfEntries_append.mp hready.wf).1).2
  have hbytes := hpass.new_bytes hwf hready.lt
  have hne : new ≠ [] := by
    rintro rfl
    cases hpass
    cases hnext
  -- a range of the new map is a new piece, which holds bytes, or was in the old map
  have hmem : ∀ en ∈ pre ++ new ++ post, en ∈ new ∨ en ∈ pre ++ old ++ post := by
    intro en hen
    simp only [List.mem_append] at hen ⊢
    tauto
  refine ⟨fun x => ?_, fun en hen => ?_, fun en hen hempty => ?_⟩
  · rw [hpass.covered_iff hwf hready.lt hne, h.cover, hnext, Option.getD_some]
    omega
  · rcases hmem en hen with hen | hen
    · have := hcont.new_le en hen
      omega
    · exact h.keys en hen
  · rcases hmem en hen with hen | hen
    · have := hbytes en hen
      omega
    · exact h.empties en hen hempty

/-- Data that reaches past the end of the tiling starts, in its last pass, at that end. -/
theorem Pass.key_ne_of_lt (hpass : Pass L .sent seg level s e pre post old new next)
    (hready : Ready L .sent e (pre ++ old ++ post) s) (h : Tiled b₀ L (pre ++ old ++ post))
    (hs : b₀ ≤ s) (hsL : s ≤ L) (hnext : next = none) (hLe : L < e) :
    ∀ en ∈ pre ++ post, en.1 ≠ L := by
  have hold : ∀ en ∈ old, en.2.endSeq = en.2.startSeq → s = L ∧ sentCount en.2 = 0 :=
    fun en hen => h.old_empty hready hs hpass hen
  have hwf := (wfEntries_append.mp (wfEntries_append.mp hready.wf).1).2
  have hlt := hready.lt
  -- a range that ends with the data or behind it lies in the tiling, against `hLe`
  cases hpass with
  | missing hitype => cases hitype
  | span | beyond => cases hnext
  | fresh hitype hpre hpost hgap =>
      -- a byte below `L` is held, so only data at `L` finds no range
      have hsL' : s = L := by
        by_contra hne
        have hlt' : s < L := lt_of_le_of_ne hsL hne
        obtain ⟨en, hen, hhold⟩ := (h.cover s).mpr ⟨hs, hlt'⟩
        exact hgap hlt' en (by simpa using hen) hhold
      intro en hen
      rcases List.mem_append.mp hen with hen | hen
      · exact hsL' ▸ (hpre en hen).ne
      · exact hsL' ▸ (hpost en hen).ne'
  | reuse r c hitype hzero =>
      have hr : s = r.startSeq := (hwf (s, r) (by simp)).1
      have hsL' := (hold (s, r) (by simp) (hzero.trans hr)).1
      have hsorted := hready.sorted
      rw [List.append_assoc, List.singleton_append] at hsorted
      obtain ⟨-, hsorted, hcross⟩ := List.pairwise_append.mp hsorted
      intro en hen
      rcases List.mem_append.mp hen with hen | hen
      · exact hsL' ▸ (hcross en hen (s, r) List.mem_cons_self).ne
      · exact hsL' ▸ (List.rel_of_pairwise_cons hsorted hen).ne'
  | whole r hend | front r hend =>
      have hr : s = r.startSeq := (hwf (s, r) (by simp)).1
      have hle : r.endSeq ≤ L := h.endSeq_le (s, r) (by simp) (by simp; omega)
      omega
  | back key r hkey hlo hend =>
      have hr : key = r.startSeq := (hwf (key, r) (by simp)).1
      have hle : r.endSeq ≤ L := h.endSeq_le (key, r) (by simp) (by simp; omega)
      omega
  | middle key r hkey hend =>
      have hr : key = r.startSeq := (hwf (key, r) (by simp)).1
      have hle : r.endSeq ≤ L := h.endSeq_le (key, r) (by simp) (by simp; omega)
      omega

theorem Pass.tiled_done (hpass : Pass L .sent seg level s e pre post old new next)
    (hready : Ready L .sent e (pre ++ old ++ post) s) (h : Tiled b₀ L (pre ++ old ++ post))
    (hs : b₀ ≤ s) (hsL : s ≤ L) (hnext : next = none) :
    Tiled b₀ (max L e) (pre ++ new ++ post) := by
  have hwf := (wfEntries_append.mp (wfEntries_append.mp hready.wf).1).2
  have hbytes := hpass.new_bytes hwf hready.lt
  have hne : new ≠ [] := by
    rintro rfl
    cases hpass with
    | missing hitype => cases hitype
  refine ⟨fun x => ?_, fun en hen => ?_, fun en hen hempty => ?_⟩
  · rw [hpass.covered_iff hwf hready.lt hne, h.cover, hnext, Option.getD_none]
    omega
  · by_cases hnew : en ∈ new
    · have := hpass.new_key_le hready.lt en hnew
      omega
    · have := h.keys en (by simp only [List.mem_append] at hen ⊢; tauto)
      omega
  · by_cases hnew : en ∈ new
    · have := hbytes en hnew
      omega
    · have hen' : en ∈ pre ++ post := by
        simp only [List.mem_append] at hen ⊢
        tauto
      rcases h.empties en (by simp only [List.mem_append] at hen' ⊢; tauto) hempty with hL | hlow
      · left
        refine ⟨?_, hL.2⟩
        by_contra hne'
        exact hpass.key_ne_of_lt hready h hs hsL hnext (by omega) en hen' hL.1
      · exact .inr hlow

end Pass

/-! ## One packet -/

/-- A packet of a gap-free trace: data that starts at or below `lastSeq`, or a pure ACK there. -/
structure GapFreeSent (b₀ : ℕ) (rm : RangeManager) (sd : SendData) : Prop where
  size : sd.data.endSeq = sd.data.seq + sd.data.payloadSize
  data : sd.data.payloadSize ≠ 0 → sd.data.payloadSize < 2 ^ 16 - 1 ∧ sd.data.syn = false ∧
    b₀ ≤ sd.data.seq ∧ sd.data.seq ≤ rm.lastSeq ∧
    overlaps rm.ranges.entries sd.data.seq sd.data.endSeq ≤ recursionLevel
  pureAck : sd.data.payloadSize = 0 → sd.data.noFlags ∧ sd.data.seq = rm.lastSeq

/-- What holds after the packets `done`. -/
structure SentInv (b₀ : ℕ) (rm : RangeManager) (done : List SendData) : Prop where
  wf : WfEntries rm.ranges.entries
  sep : Separated rm.ranges.entries
  tiled : Tiled b₀ rm.lastSeq rm.ranges.entries
  counts : ∀ w : IntervalWeight, mass w sentCount rm.ranges.entries =
    (done.map fun sd => w sd.data.seq sd.data.endSeq).sum
  sizes : ∀ sd ∈ done, sd.data.endSeq = sd.data.seq + sd.data.payloadSize

theorem SentInv.sizes_append {b₀ : ℕ} {rm : RangeManager} {done : List SendData}
    (h : SentInv b₀ rm done) {sd : SendData}
    (hsize : sd.data.endSeq = sd.data.seq + sd.data.payloadSize) :
    ∀ sd' ∈ done ++ [sd], sd'.data.endSeq = sd'.data.seq + sd'.data.payloadSize := by
  intro sd' hmem
  rcases List.mem_append.mp hmem with hmem | hmem
  · exact h.sizes sd' hmem
  · rw [List.mem_singleton.mp hmem]
    exact hsize

/-- What the insertion of `[s, e)` does to the entries `l₀`, a tiling up to `L`. -/
structure Sent (b₀ L : ℕ) (l₀ : List Entry) (s e : ℕ) (l : List Entry) : Prop where
  tiled : Tiled b₀ (max L e) l
  counts : ∀ w : IntervalWeight, mass w sentCount l = mass w sentCount l₀ + w s e

/-- Before the pass at `s'`: the data up to `s'` has been counted. -/
structure Sending (b₀ L : ℕ) (l₀ : List Entry) (s e : ℕ) (l : List Entry) (s' level : ℕ) :
    Prop where
  tiled : Tiled b₀ L l
  start : s ≤ s' ∧ s' ≤ L
  room : level + overlaps l s' e ≤ recursionLevel
  counts : ∀ w : IntervalWeight, mass w sentCount l = mass w sentCount l₀ + w s s'

theorem passKeeps_sending {b₀ L s₀ e : ℕ} {seg : DataSeg} {l₀ : List Entry} (hs₀ : b₀ ≤ s₀) :
    PassKeeps L .sent seg e (Sending b₀ L l₀ s₀ e) (Sent b₀ L l₀ s₀ e) := by
  intro s level pre old new post next hready hinv hpass
  have hlt := hready.lt
  have ht := hinv.tiled
  have hstart := hinv.start
  have hs : b₀ ≤ s := hs₀.trans hstart.1
  have hwf := (wfEntries_append.mp (wfEntries_append.mp hready.wf).1).2
  have hnew : new ≠ [] := by
    rintro rfl
    cases hpass with
    | missing hitype => cases hitype
  have hmass := hpass.mass_eq (countsBytes_sent seg) hwf hlt
    (fun en hen hempty => (ht.old_empty hready hs hpass hen hempty).2) (fun h => absurd h hnew)
  constructor
  · rintro rfl
    refine ⟨hpass.tiled_done hready ht hs hstart.2 rfl, fun w => ?_⟩
    rw [hmass w, hinv.counts w, one_mul, Option.getD_none, add_assoc, w.weight_add hstart.1 hlt.le]
  · rintro s' rfl
    have hcont := hpass.continues hready.wf hready.sep rfl
    have hbounds := hpass.next_bounds rfl
    have hle := ht.next_le hready.wf hcont
    -- each further call has one range with bytes less to pass
    have hless := hpass.overlaps_lt hready (ht.old_bytes hready hs hpass rfl) rfl
    have hroom := hinv.room
    refine ⟨hpass.tiled_next hready ht hs rfl, by omega, by omega, fun w => ?_⟩
    rw [hmass w, hinv.counts w, one_mul, Option.getD_some, add_assoc,
      w.weight_add hstart.1 hbounds.1.le]

theorem insertByteRange_sent {b₀ : ℕ} {rm : RangeManager} {sd : SendData}
    (hwf : WfEntries rm.ranges.entries) (hsep : Separated rm.ranges.entries)
    (htiled : Tiled b₀ rm.lastSeq rm.ranges.entries) (hok : GapFreeSent b₀ rm sd)
    (hdata : sd.data.payloadSize ≠ 0) :
    ∃ rm' ret, rm.insertByteRange sd.data.seq sd.data.endSeq .sent sd.data 0 = .ok (rm', ret) ∧
      Inserted (Sent b₀ rm.lastSeq rm.ranges.entries sd.data.seq sd.data.endSeq) rm rm' := by
  obtain ⟨hbound, hsyn, hlo, hhi, hover⟩ := hok.data hdata
  have hsize := hok.size
  -- every byte below `lastSeq` is held, and no range starts above it
  have hskip : NoSkip rm.ranges.entries sd.data.seq sd.data.endSeq := by
    intro h hle _ _ hheld en hen
    left
    by_contra hgt
    have hL := htiled.keys en hen
    obtain ⟨en', hen', hhold⟩ := (htiled.cover h).mpr ⟨by omega, by omega⟩
    exact hheld ⟨en', hen', .inr hhold⟩
  have hinside : ∀ en ∈ rm.ranges.entries, en.1 < sd.data.seq → sd.data.seq < en.2.endSeq →
      sd.data.seq < rm.lastSeq := by
    intro en hen hlow hhigh
    have hkey := (hwf en hen).1
    have := htiled.endSeq_le en hen (by omega)
    omega
  have hready : Ready rm.lastSeq .sent sd.data.endSeq rm.ranges.entries sd.data.seq :=
    ⟨rm.ranges.sorted, hwf, hsep, by omega, fun _ => by omega, hinside, hskip, fun h => nomatch h⟩
  have hstart : Sending b₀ rm.lastSeq rm.ranges.entries sd.data.seq sd.data.endSeq
      rm.ranges.entries sd.data.seq 0 :=
    ⟨htiled, by omega, by omega, fun w => by rw [w.weight_self]; rfl⟩
  refine insertLoop_ok (by simp) (passKeeps_sending hlo) ?_ hready hstart (by omega)
  intro rm₁ s₁ level₁ hframe hready₁ hinv
  refine insertBody_ok hready₁.wf hready₁.sep hready₁.lt hready₁.size (by simp) (fun _ => hsyn)
    ?_ ?_ (fun h => nomatch h) (fun h => nomatch h)
  · intro hlast
    rw [hframe.lastSeq] at hlast
    have hs₁ := hinv.start
    obtain ⟨en, hen, hhold⟩ := (hinv.tiled.cover s₁).mpr ⟨by omega, hlast⟩
    exact ⟨en, hen, .inr hhold⟩
  · have := hinv.room
    intros
    omega

theorem flags_of_noFlags {seg : DataSeg} (h : seg.noFlags = true) :
    seg.syn = false ∧ seg.fin = false ∧ seg.rst = false := by
  unfold DataSeg.noFlags at h
  revert h
  cases seg.syn <;> cases seg.fin <;> cases seg.rst <;> simp

theorem sentCount_recordEmpty {seg : DataSeg} (hflags : seg.noFlags = true) (rdb : Bool)
    (r : ByteRange) : sentCount (recordEmpty seg .sent 0 rdb r) = sentCount r := by
  have h := flags_of_noFlags hflags
  unfold recordEmpty
  simp [h.1, h.2.1, h.2.2, recordSent, ByteRange.increaseSent, sentCount]

theorem sentCount_emptyRange {seg : DataSeg} (hflags : seg.noFlags = true) (rdb : Bool) (q : ℕ) :
    sentCount (emptyRange seg rdb q) = 0 := by
  simp [emptyRange, hflags, recordSent, ByteRange.increaseSent, sentCount, ByteRange.blank]

theorem emptySeq_cases (rm : RangeManager) (seg : DataSeg) (s : ℕ) :
    rm.emptySeq seg s = s ∨ ∃ en ∈ rm.ranges.entries, en.1 = rm.emptySeq seg s := by
  unfold emptySeq
  split
  · next h =>
      obtain ⟨r, hr⟩ := Option.isSome_iff_exists.mp h.2
      exact .inr ⟨_, OrdMap.find?_eq_some_iff.mp hr, rfl⟩
  · exact .inl rfl

section Empty

variable {seg : DataSeg} {rdb : Bool} {q b₀ L : ℕ} {l l' : List Entry}

theorem EmptyPass.covered_iff (h : EmptyPass seg rdb q l l') {x : ℕ} :
    Covered l' x ↔ Covered l x := by
  cases h with
  | fresh hpre hpost =>
      simp only [covered_append, covered_cons, ByteRange.Holds, emptyRange_startSeq,
        emptyRange_endSeq]
      constructor
      · rintro (h | h | h)
        · exact .inl h
        · omega
        · exact .inr h
      · tauto
  | found r =>
      simp only [covered_append, covered_cons, ByteRange.Holds, recordEmpty_startSeq,
        recordEmpty_endSeq]

theorem EmptyPass.mass_eq (h : EmptyPass seg rdb q l l') (hflags : seg.noFlags = true)
    (w : IntervalWeight) : mass w sentCount l' = mass w sentCount l := by
  cases h with
  | fresh hpre hpost => simp [w.weight_self]
  | found r => simp [sentCount_recordEmpty hflags]

theorem EmptyPass.tiled (h : EmptyPass seg rdb q l l') (hflags : seg.noFlags = true)
    (hq : q = L ∨ ∃ en ∈ l, en.1 = q) (ht : Tiled b₀ L l) : Tiled b₀ L l' := by
  have hcover : ∀ x, Covered l' x ↔ b₀ ≤ x ∧ x < L := fun x => h.covered_iff.trans (ht.cover x)
  cases h with
  | @fresh pre post hpre hpost =>
      -- no range starts at `q`, so it is the end of the tiling
      have hqL : q = L := hq.resolve_right fun ⟨en, hen, hkey⟩ => by
        rcases List.mem_append.mp hen with hen | hen
        · exact (hpre en hen).ne hkey
        · exact (hpost en hen).ne' hkey
      have hmem : ∀ en ∈ pre ++ (q, emptyRange seg rdb q) :: post,
          en = (q, emptyRange seg rdb q) ∨ en ∈ pre ++ post := by
        intro en hen
        simp only [List.mem_append, List.mem_cons] at hen ⊢
        tauto
      refine ⟨hcover, fun en hen => ?_, fun en hen hempty => ?_⟩
      · rcases hmem en hen with rfl | hen
        · exact hqL.le
        · exact ht.keys en hen
      · rcases hmem en hen with rfl | hen
        · exact .inl ⟨hqL, sentCount_emptyRange hflags rdb q⟩
        · exact ht.empties en hen hempty
  | @found pre post r =>
      have hmem : ∀ en ∈ pre ++ (q, recordEmpty seg .sent 0 rdb r) :: post,
          en = (q, recordEmpty seg .sent 0 rdb r) ∨ en ∈ pre ++ (q, r) :: post := by
        intro en hen
        simp only [List.mem_append, List.mem_cons] at hen ⊢
        tauto
      refine ⟨hcover, fun en hen => ?_, fun en hen hempty => ?_⟩
      · rcases hmem en hen with rfl | hen
        · exact ht.keys (q, r) (by simp)
        · exact ht.keys en hen
      · rcases hmem en hen with rfl | hen
        · have := ht.empties (q, r) (by simp) (by simpa using hempty)
          rwa [← sentCount_recordEmpty hflags rdb r] at this
        · exact ht.empties en hen hempty

end Empty

theorem insertSentRange_pureAck {b₀ : ℕ} {rm : RangeManager} {sd : SendData}
    {done : List SendData} (hinv : SentInv b₀ rm done) (hok : GapFreeSent b₀ rm sd)
    (hempty : sd.data.payloadSize = 0) :
    ∃ rm', rm.insertSentRange sd = .ok rm' ∧ SentInv b₀ rm' (done ++ [sd]) := by
  obtain ⟨hflags, hseq⟩ := hok.pureAck hempty
  have hend : sd.data.endSeq = sd.data.seq := by simpa [hempty] using hok.size
  obtain ⟨rm₁, hsent, hlast, hpass⟩ := insertSentRange_empty rm hend
  -- a packet without flags ends at its own number, which is `lastSeq`
  have hlast' : rm₁.lastSeq = rm.lastSeq := by
    obtain ⟨hsyn, -, hrst⟩ := flags_of_noFlags hflags
    rw [hlast]
    unfold newLastSeq
    rw [if_pos hempty, hrst, if_neg Bool.false_ne_true, hsyn, hend, hseq]
    rfl
  have hq : rm.emptySeq sd.data sd.data.seq = rm.lastSeq ∨
      ∃ en ∈ rm.ranges.entries, en.1 = rm.emptySeq sd.data sd.data.seq := by
    rw [← hseq]
    exact emptySeq_cases rm sd.data sd.data.seq
  have hclear : ∀ en ∈ rm.ranges.entries, en.1 < rm.lastSeq → en.2.endSeq ≤ rm.lastSeq := by
    intro en hen hlow
    obtain ⟨hkey, hwf⟩ := hinv.wf en hen
    by_cases hbytes : en.2.startSeq < en.2.endSeq
    · exact hinv.tiled.endSeq_le en hen hbytes
    · omega
  have hsep := hpass.separated hinv.wf hinv.sep (hq.symm.imp_right fun h => by rwa [h])
  refine ⟨rm₁, hsent, hpass.wf hinv.wf, hsep, ?_, fun w => ?_, hinv.sizes_append hok.size⟩
  · rw [hlast']
    exact hpass.tiled hflags hq hinv.tiled
  · rw [hpass.mass_eq hflags, hinv.counts w, List.map_append, List.sum_append]
    simp [hend, w.weight_self]

theorem insertSentRange_data {b₀ : ℕ} {rm : RangeManager} {sd : SendData}
    {done : List SendData} (hinv : SentInv b₀ rm done) (hok : GapFreeSent b₀ rm sd)
    (hdata : sd.data.payloadSize ≠ 0) :
    ∃ rm', rm.insertSentRange sd = .ok rm' ∧ SentInv b₀ rm' (done ++ [sd]) := by
  obtain ⟨-, -, -, hhi, -⟩ := hok.data hdata
  have hsize := hok.size
  obtain ⟨rm₁, ret, h₁, hframe, hwf, hsep, htiled, hmass⟩ :=
    insertByteRange_sent hinv.wf hinv.sep hinv.tiled hok hdata
  have hlast : newLastSeq sd rm₁.lastSeq = max rm.lastSeq sd.data.endSeq := by
    rw [hframe.lastSeq]
    unfold newLastSeq
    rw [if_neg hdata]
    split_ifs <;> omega
  refine ⟨_, insertSentRange_of_ok h₁, hwf, hsep, ?_, fun w => ?_, hinv.sizes_append hsize⟩
  · rw [hlast]
    exact htiled
  · rw [hmass w, hinv.counts w, List.map_append, List.sum_append]
    simp

/-! ## Runs -/

structure OpeningSyn (sd : SendData) : Prop where
  seq : sd.data.seq = 0
  endSeq : sd.data.endSeq = 0
  payload : sd.data.payloadSize = 0
  syn : sd.data.syn = true

/-- The first byte position of the stream: a SYN takes one. -/
def firstByte (syn : Option SendData) : ℕ := if syn.isSome then 1 else 0

theorem EmptyPass.of_nil {seg : DataSeg} {rdb : Bool} {q : ℕ} {l' : List Entry}
    (h : EmptyPass seg rdb q [] l') : l' = [(q, emptyRange seg rdb q)] := by
  generalize hl : ([] : List Entry) = l at h
  cases h with
  | fresh hpre hpost =>
      obtain ⟨rfl, rfl⟩ := List.append_eq_nil_iff.mp hl.symm
      rfl
  | found r => simp at hl

theorem insertSentRange_openingSyn (firstSeq : ℕ) {sd : SendData} (h : OpeningSyn sd) :
    ∃ rm, (new firstSeq).insertSentRange sd = .ok rm ∧ SentInv 1 rm [sd] := by
  have hend : sd.data.endSeq = sd.data.seq := h.endSeq.trans h.seq.symm
  obtain ⟨rm₁, hsent, hlast, hpass⟩ := insertSentRange_empty (new firstSeq) hend
  have hq : (new firstSeq).emptySeq sd.data sd.data.seq = 0 := by
    unfold emptySeq
    rw [if_neg (by simp [new, OrdMap.find?]), h.seq]
  rw [hq] at hpass
  have hl := hpass.of_nil
  refine ⟨_, hsent, ?_, ?_, ⟨fun x => ?_, ?_, ?_⟩, fun w => ?_, ?_⟩
  · rw [hl]
    simp [wfEntries_cons, wfEntries_nil, ByteRange.wf_iff]
  · rw [hl]
    exact List.pairwise_singleton _ _
  · have hlast' : rm₁.lastSeq ≤ 1 := by
      rw [hlast]
      unfold newLastSeq
      rw [if_pos h.payload, h.endSeq, h.syn]
      split <;> simp [new]
    rw [hl]
    simp [covered_cons, covered_nil, ByteRange.Holds]
    omega
  · rw [hl]
    simp
  · rw [hl]
    simp
  · rw [hl]
    simp [w.weight_self, h.seq, h.endSeq]
  · simp [h.seq, h.endSeq, h.payload]

theorem sentInv_new (firstSeq : ℕ) : SentInv 0 (new firstSeq) [] where
  wf := wfEntries_nil
  sep := separated_nil
  tiled := ⟨fun x => by simp [new, Covered], fun _ h => (nomatch h), fun _ h => (nomatch h)⟩
  counts _ := rfl
  sizes _ h := nomatch h

theorem sum_point_eq_countP (x : ℕ) (sds : List SendData) :
    (sds.map fun sd => IntervalWeight.point x sd.data.seq sd.data.endSeq).sum =
      sds.countP fun sd => decide (sd.data.seq ≤ x ∧ x < sd.data.endSeq) := by
  induction sds with
  | nil => rfl
  | cons sd sds ih =>
      rw [List.map_cons, List.sum_cons, List.countP_cons, ih, IntervalWeight.point_apply]
      simp only [decide_eq_true_eq]
      omega

/-- On a gap-free trace every insertion returns, the ranges with bytes tile exactly what was sent,
and each byte is counted once for every segment that carried it. -/
theorem insertSentRange_counts_exact {firstSeq : ℕ} {syn : Option SendData} {sds : List SendData}
    (hsyn : ∀ sd ∈ syn, OpeningSyn sd)
    (hsteps : ∀ rm₀, Run.run insertSentRange (new firstSeq) syn.toList = .ok rm₀ →
      Run.Steps insertSentRange (GapFreeSent (firstByte syn)) rm₀ sds) :
    ∃ rm, Run.run insertSentRange (new firstSeq) (syn.toList ++ sds) = .ok rm ∧
      rm.Disjoint ∧
      (∀ x, (∃ en ∈ rm.ranges.entries, 0 < en.2.byteCount ∧ en.2.Holds x) ↔
        firstByte syn ≤ x ∧ x < rm.lastSeq) ∧
      (∀ en ∈ rm.ranges.entries, ∀ x, en.2.Holds x →
        en.2.dataSentCount.val =
          (sds.countP fun sd => decide (sd.data.seq ≤ x ∧ x < sd.data.endSeq)) % 2 ^ 8) ∧
      ((∀ en ∈ rm.ranges.entries, en.2.dataSentCount.Fits) →
        (rm.ranges.entries.map fun en => en.2.dataSentCount.val * en.2.byteCount).sum =
          (sds.map fun sd => sd.data.payloadSize).sum) := by
  have hstart : ∃ rm₀, Run.run insertSentRange (new firstSeq) syn.toList = .ok rm₀ ∧
      SentInv (firstByte syn) rm₀ syn.toList := by
    cases syn with
    | none => exact ⟨_, rfl, sentInv_new firstSeq⟩
    | some sd =>
        obtain ⟨rm₀, h₀, hinv⟩ := insertSentRange_openingSyn firstSeq (hsyn sd rfl)
        exact ⟨rm₀, Run.run_cons_ok h₀, hinv⟩
  obtain ⟨rm₀, h₀, hinv₀⟩ := hstart
  obtain ⟨rm, hrun, hinv⟩ := Run.exists_ok (I := SentInv (firstByte syn))
    (fun rm sd done hinv hok => by
      by_cases hempty : sd.data.payloadSize = 0
      · exact insertSentRange_pureAck hinv hok hempty
      · exact insertSentRange_data hinv hok hempty) hinv₀ (hsteps rm₀ h₀)
  -- the SYN carries no byte
  have hcounts : ∀ w : IntervalWeight, mass w sentCount rm.ranges.entries =
      (sds.map fun sd => w sd.data.seq sd.data.endSeq).sum := by
    intro w
    rw [hinv.counts w, List.map_append, List.sum_append]
    cases syn with
    | none => simp
    | some sd => simp [(hsyn sd rfl).seq, (hsyn sd rfl).endSeq, w.weight_self]
  refine ⟨rm, (Run.run_append_of_ok h₀).trans hrun, Apart.disjoint ⟨hinv.wf, hinv.sep⟩,
    fun x => ?_, fun en hen x hx => ?_, fun hfits => ?_⟩
  · rw [← hinv.tiled.cover x]
    constructor
    · rintro ⟨en, hen, -, hx⟩
      exact ⟨en, hen, hx⟩
    · rintro ⟨en, hen, hx⟩
      have hsize := (hinv.wf en hen).2.size
      have hx' := hx
      unfold ByteRange.Holds at hx'
      exact ⟨en, hen, by omega, hx⟩
  · have hmass := hcounts (.point x)
    rw [sum_point_eq_countP] at hmass
    have hpoint : mass (.point x) sentCount rm.ranges.entries = sentCount en.2 :=
      intervalMass_point (fun en : Entry => sentCount en.2) hinv.sep hen hx
    rw [Counter.val, ← hmass, hpoint]
    rfl
  · have hval : ∀ en ∈ rm.ranges.entries, en.2.dataSentCount.val * en.2.byteCount =
        sentCount en.2 * IntervalWeight.length en.2.startSeq en.2.endSeq := by
      intro en hen
      have hsize := (hinv.wf en hen).2.size
      rw [Counter.val_of_fits (hfits en hen), IntervalWeight.length_apply,
        show en.2.endSeq - en.2.startSeq = en.2.byteCount by omega]
      rfl
    have hlen : ∀ sd ∈ sds, IntervalWeight.length sd.data.seq sd.data.endSeq =
        sd.data.payloadSize := by
      intro sd hsd
      have hsize := hinv.sizes sd (List.mem_append_right _ hsd)
      rw [IntervalWeight.length_apply]
      omega
    rw [List.map_congr_left hval, ← List.map_congr_left hlen]
    exact hcounts .length

instance (b₀ : ℕ) (rm : RangeManager) (sd : SendData) : Decidable (GapFreeSent b₀ rm sd) :=
  decidable_of_iff (sd.data.endSeq = sd.data.seq + sd.data.payloadSize ∧
    (sd.data.payloadSize ≠ 0 → sd.data.payloadSize < 2 ^ 16 - 1 ∧ sd.data.syn = false ∧
      b₀ ≤ sd.data.seq ∧ sd.data.seq ≤ rm.lastSeq ∧
      overlaps rm.ranges.entries sd.data.seq sd.data.endSeq ≤ recursionLevel) ∧
    (sd.data.payloadSize = 0 → sd.data.noFlags ∧ sd.data.seq = rm.lastSeq))
    ⟨fun h => ⟨h.1, h.2.1, h.2.2⟩, fun h => ⟨h.size, h.data, h.pureAck⟩⟩

theorem insertSentRange_counts_exact_small :
    ∃ rm, Run.run insertSentRange (new 7) (smallSyn :: smallTrace) = .ok rm ∧
      ∀ x, (∃ en ∈ rm.ranges.entries, 0 < en.2.byteCount ∧ en.2.Holds x) ↔
        1 ≤ x ∧ x < rm.lastSeq := by
  have hsyn : ∀ sd ∈ some smallSyn, OpeningSyn sd := by
    rintro sd ⟨⟩
    exact ⟨rfl, rfl, rfl, by decide⟩
  have hsteps : ∀ rm₀, Run.run insertSentRange (new 7) [smallSyn] = .ok rm₀ →
      Run.Steps insertSentRange (GapFreeSent 1) rm₀ smallTrace := fun _ h₀ =>
    Run.of_all_toOption (p := fun rm₀ => Run.Steps insertSentRange (GapFreeSent 1) rm₀ smallTrace)
      (by decide) h₀
  obtain ⟨rm, hrun, -, hcover, -⟩ := insertSentRange_counts_exact hsyn hsteps
  exact ⟨rm, hrun, hcover⟩

end RangeManager

end AnalyseTCP
