import AnalyseTCP.LossBounds
import AnalyseTCP.LossAgreement

/-!
# RDB packet hits

`calculateRealLoss` counts a hit for every range whose first received copy came in a bundle, and a
bundle for every range that a bundle opened.  A hit needs an RDB timestamp on the range.  Every range
that a bundle repeats gets one, so a bundle over two ranges may be counted as two hits; and a cut
copies the timestamps to the new range.
-/

namespace AnalyseTCP

namespace ByteRange

/-- Some bundle carried the range a second time. -/
def bundled (r : ByteRange) : Bool := !r.rdbTstampsTcp.isEmpty

/-- A range is classified as an RDB hit only if a bundle carried it. -/
theorem matchReceivedType_recvType {r : ByteRange} (hdeflt : r.recvType = .deflt)
    (h : r.matchReceivedType.1.recvType = .rdb) : r.bundled = true := by
  unfold matchReceivedType at h
  split at h
  · cases h
  · cases h
  · split at h
    · next i hi =>
        unfold bundled
        cases hs : r.rdbTstampsTcp with
        | nil =>
            rw [hs] at hi
            cases hi
        | cons => rfl
    · rw [hdeflt] at h
      cases h

end ByteRange

namespace RangeManager

/-! ## What the totals count -/

section Totals

variable (withRecv : Bool)

theorem add_toNat_add (a n : ℕ) (b : Bool) :
    a + b.toNat + n = a + (n + if b = true then 1 else 0) := by
  cases b
  · simp
  · simp
    omega

theorem foldl_addRange_rdb (l : List Entry) (t : LossTotals) :
    (l.foldl (fun t e => t.addRange withRecv (classifyRange withRecv e.2)) t).rdbPacketHits =
        t.rdbPacketHits + l.countP (fun e => (classifyRange withRecv e.2).recvType = .rdb) ∧
      (l.foldl (fun t e => t.addRange withRecv (classifyRange withRecv e.2)) t).analysedRdbPacketCount =
        t.analysedRdbPacketCount + l.countP (fun e => e.2.originalPacketIsRdb) := by
  induction l generalizing t with
  | nil => exact ⟨rfl, rfl⟩
  | cons e l ih =>
      have horig : (classifyRange withRecv e.2).originalPacketIsRdb = e.2.originalPacketIsRdb :=
        classifyRange_blind withRecv e.2 _ (fun _ _ => rfl) (fun _ _ _ => rfl) (fun _ _ => rfl)
          fun _ _ => rfl
      obtain ⟨hhits, hpackets⟩ := ih (t.addRange withRecv (classifyRange withRecv e.2))
      rw [List.foldl_cons, hhits, hpackets, List.countP_cons, List.countP_cons]
      constructor
      · exact add_toNat_add _ _ _
      · rw [← horig]
        exact add_toNat_add _ _ _

theorem classifyRange_recvType (r : ByteRange) :
    (classifyRange withRecv r).recvType =
      if withRecv then r.matchReceivedType.1.recvType else r.recvType := by
  unfold classifyRange
  dsimp only
  split <;> split <;> rfl

theorem countP_hits_le {l : List Entry} (hdeflt : ∀ en ∈ l, en.2.recvType = .deflt) :
    l.countP (fun e => (classifyRange withRecv e.2).recvType = .rdb) ≤
      l.countP fun e => e.2.bundled := by
  apply List.countP_mono_left
  intro en hen hhit
  have hhit' := of_decide_eq_true hhit
  rw [classifyRange_recvType] at hhit'
  cases withRecv
  · rw [if_neg Bool.false_ne_true, hdeflt en hen] at hhit'
    cases hhit'
  · rw [if_pos rfl] at hhit'
    exact ByteRange.matchReceivedType_recvType (hdeflt en hen) hhit'

end Totals

/-! ## Recording a packet -/

section Record

variable (itype : InsertType) (seg : DataSeg) (level : ℕ) (rdb : Bool) (r : ByteRange)

/-- The two marks of a range that no packet changes. -/
def marks (r : ByteRange) : ReceivedType × Bool := (r.recvType, r.originalPacketIsRdb)

theorem marks_recordRecv : marks (recordRecv seg level r) = marks r :=
  recordRecv_blind seg level r fun _ _ _ _ => rfl

theorem marks_recordFound : marks (recordFound seg level rdb itype r) = marks r := by
  cases itype with
  | sent => exact recordSentFound_blind seg level rdb r fun _ _ => rfl
  | recv => exact marks_recordRecv seg level r
  | sojourn => rfl

theorem marks_recordSplit : marks (recordSplit seg level rdb itype r) = marks r := by
  cases itype with
  | sent => rfl
  | recv => exact marks_recordRecv seg level r
  | sojourn => rfl

theorem bundled_recordSent (sentT : SentType) :
    (recordSent seg rdb sentT r).bundled = (r.bundled || rdb) := by
  show (!(if rdb then r.rdbTstampsTcp ++ [seg.tstampTcp] else r.rdbTstampsTcp).isEmpty) = _
  unfold ByteRange.bundled
  cases rdb
  · rw [if_neg Bool.false_ne_true, Bool.or_false]
  · rw [if_pos rfl, Bool.or_true]
    cases r.rdbTstampsTcp <;> rfl

theorem bundled_recordRecv : (recordRecv seg level r).bundled = r.bundled :=
  recordRecv_blind seg level r fun _ _ _ _ => rfl

variable {r} {rdb}

theorem bundled_recordFound (h : (recordFound seg level rdb itype r).bundled = true) :
    r.bundled = true ∨ rdb = true := by
  cases itype with
  | sent =>
      have hcounts : (recordSentCounts seg level rdb r).bundled = true := by
        rw [← recordSentFound_blind seg level rdb r (f := ByteRange.bundled) fun _ _ => rfl]
        exact h
      have hsent : (recordSent seg rdb (foundType seg level) r).bundled = true := hcounts
      rw [bundled_recordSent] at hsent
      simpa using hsent
  | recv =>
      rw [← bundled_recordRecv seg level r]
      exact .inl h
  | sojourn => exact .inl h

theorem bundled_recordSplit (h : (recordSplit seg level rdb itype r).bundled = true) :
    r.bundled = true ∨ rdb = true := by
  cases itype with
  | sent =>
      have hsent : (recordSent seg rdb (if level = 0 then .rtr else .none) r).bundled = true := h
      rw [bundled_recordSent] at hsent
      simpa using hsent
  | recv =>
      rw [← bundled_recordRecv seg level r]
      exact .inl h
  | sojourn => exact .inl h

end Record

/-! ## Pieces -/

/-- What an entry made by a pass takes over from the entries before it. -/
structure Inherits (l : List Entry) (seg : DataSeg) (s e : ℕ) (next : Option ℕ) (en : Entry) :
    Prop where
  marks : (∃ r, (en.1, r) ∈ l ∧ marks en.2 = marks r) ∨
    (∀ o ∈ l, o.1 ≠ en.1) ∧ en.2.recvType = .deflt
  bundled : en.2.bundled = true →
    (∃ r, (en.1, r) ∈ l ∧ r.bundled = true) ∨ (en.1 = s ∧ thisIsRdbData seg s = true) ∨
      (en.1 = s ∨ en.1 = e) ∧ ∃ o ∈ l, o.2.bundled = true ∧ o.2.Inside en.1
  behind : ∀ s', next = some s' → en.1 ≤ s ∧ en.2.startSeq < en.2.endSeq ∧
    (en.2.endSeq = s ∨ en.2.endSeq = s' ∧ ((∃ o ∈ l, o.2.endSeq = s') ∨ ∃ o ∈ l, o.1 = s'))

theorem Piece.inherits {l : List Entry} {itype : InsertType} {seg : DataSeg} {level s e : ℕ}
    {next : Option ℕ} {en : Entry} (h : Piece l itype seg level s e next en) (hwf : WfEntries l)
    (hlt : s < e) : Inherits l seg s e next en := by
  -- a piece takes its marks over from the range it was cut from, or starts with none
  cases h with
  | fresh hitype hfree hsize =>
      have hdeflt : (freshRange seg s e).recvType = .deflt := finSet_blind seg _ fun _ _ => rfl
      refine ⟨.inr ⟨hfree, hdeflt⟩, fun hb => .inr (.inl ⟨rfl, ?_⟩), fun s' hs => (nomatch hs)⟩
      unfold freshRange at hb
      rw [finSet_blind seg _ (f := ByteRange.bundled) fun _ _ => rfl, bundled_recordSent] at hb
      exact hb
  | whole r hmem hend =>
      have hmarks : marks (wholeRange itype seg level s r) = marks r :=
        (wholeRange_blind itype seg level s r fun _ _ => rfl).trans (marks_recordFound ..)
      refine ⟨.inl ⟨r, hmem, hmarks⟩, fun hb => ?_, fun s' hs => (nomatch hs)⟩
      rw [wholeRange_blind itype seg level s r (f := ByteRange.bundled) fun _ _ => rfl] at hb
      rcases bundled_recordFound itype seg level hb with hb | hb
      · exact .inl ⟨r, hmem, hb⟩
      · exact .inr (.inl ⟨rfl, hb⟩)
  | span r hmem hbytes hend =>
      have hr : s = r.startSeq := (hwf _ hmem).1
      refine ⟨.inl ⟨r, hmem, marks_recordFound ..⟩, fun hb => ?_, fun s' hs => ?_⟩
      · rcases bundled_recordFound itype seg level hb with hb | hb
        · exact .inl ⟨r, hmem, hb⟩
        · exact .inr (.inl ⟨rfl, hb⟩)
      · rw [recordFound_startSeq, recordFound_endSeq]
        have hend' := Option.some.inj hs
        exact ⟨le_rfl, hr ▸ hbytes, .inr ⟨hend', .inl ⟨_, hmem, hend'⟩⟩⟩
  | front r hmem hend =>
      refine ⟨.inl ⟨r, hmem, marks_recordFound ..⟩, fun hb => ?_, fun s' hs => (nomatch hs)⟩
      rcases bundled_recordFound itype seg level hb with hb | hb
      · exact .inl ⟨r, hmem, hb⟩
      · exact .inr (.inl ⟨rfl, hb⟩)
  | frontRest r hmem hend hrest =>
      have hr : s = r.startSeq := (hwf _ hmem).1
      -- the part behind a cut of a bundled range keeps its RDB timestamps, and starts at `e`
      refine ⟨.inr ⟨hrest, rfl⟩, fun hb => .inr (.inr ⟨.inr rfl, (s, r), hmem, hb, ?_⟩),
        fun s' hs => (nomatch hs)⟩
      exact ⟨hr ▸ hlt, hend⟩
  | reuse r c hmem hitype hempty hlo hhi hsize hnext =>
      have hr : s = r.startSeq := (hwf _ hmem).1
      refine ⟨.inl ⟨r, hmem, rfl⟩, fun hb => ?_, fun s' hs => ?_⟩
      · have hb' : (recordSent seg (thisIsRdbData seg s) .pkt (r.head c)).bundled = true := hb
        rw [bundled_recordSent, Bool.or_eq_true] at hb'
        rcases hb' with hb' | hb'
        · exact .inl ⟨r, hmem, hb'⟩
        · exact .inr (.inl ⟨rfl, hb'⟩)
      · split at hs
        · next hce =>
            obtain rfl := Option.some.inj hs
            exact ⟨le_rfl, hr ▸ hlo, .inr ⟨rfl, .inr (hnext hce)⟩⟩
        · cases hs
  | cutHead key r next hfree hmem hkey hlo =>
      have hr : key = r.startSeq := (hwf _ hmem).1
      refine ⟨.inl ⟨r, hmem, rfl⟩, fun hb => .inl ⟨r, hmem, hb⟩, fun s' hs => ?_⟩
      exact ⟨hkey.le, hr ▸ hkey, .inl rfl⟩
  | back key r hfree hmem hkey hlo hend =>
      have hr : key = r.startSeq := (hwf _ hmem).1
      have hmarks : marks (recordSplit seg level (thisIsRdbData seg s) itype
          (finSet seg (r.tail s))) = marks (r.tail s) :=
        (marks_recordSplit ..).trans (finSet_blind seg _ fun _ _ => rfl)
      refine ⟨.inr ⟨hfree, congrArg Prod.fst hmarks⟩, fun hb => ?_, fun s' hs => (nomatch hs)⟩
      rcases bundled_recordSplit itype seg level hb with hb | hb
      · rw [finSet_blind seg _ (f := ByteRange.bundled) fun _ _ => rfl] at hb
        exact .inr (.inr ⟨.inl rfl, (key, r), hmem, hb, hr ▸ hkey, hlo⟩)
      · exact .inr (.inl ⟨rfl, hb⟩)
  | middle key r hfree hmem hkey hend =>
      have hr : key = r.startSeq := (hwf _ hmem).1
      have hmarks : marks (recordSplit seg level (thisIsRdbData seg s) itype
          (finSet seg ((r.tail s).head e))) = marks (r.tail s) :=
        (marks_recordSplit ..).trans (finSet_blind seg _ fun _ _ => rfl)
      refine ⟨.inr ⟨hfree, congrArg Prod.fst hmarks⟩, fun hb => ?_, fun s' hs => (nomatch hs)⟩
      rcases bundled_recordSplit itype seg level hb with hb | hb
      · rw [finSet_blind seg _ (f := ByteRange.bundled) fun _ _ => rfl] at hb
        exact .inr (.inr ⟨.inl rfl, (key, r), hmem, hb, hr ▸ hkey, hlt.trans hend⟩)
      · exact .inr (.inl ⟨rfl, hb⟩)
  | middleRest key r hfree hmem hkey hend hrest =>
      have hr : key = r.startSeq := (hwf _ hmem).1
      refine ⟨.inr ⟨hrest, rfl⟩, fun hb => .inr (.inr ⟨.inr rfl, (key, r), hmem, hb, ?_⟩),
        fun s' hs => (nomatch hs)⟩
      exact ⟨hr ▸ hkey.trans hlt, hend⟩
  | beyond key r hfree hmem hkey hlo hend =>
      have hr : key = r.startSeq := (hwf _ hmem).1
      have hmarks : marks (recordSplit seg level (thisIsRdbData seg s) itype (r.tail s)) =
          marks (r.tail s) := marks_recordSplit ..
      refine ⟨.inr ⟨hfree, congrArg Prod.fst hmarks⟩, fun hb => ?_, fun s' hs => ?_⟩
      · rcases bundled_recordSplit itype seg level hb with hb | hb
        · exact .inr (.inr ⟨.inl rfl, (key, r), hmem, hb, hr ▸ hkey, hlo⟩)
        · exact .inr (.inl ⟨rfl, hb⟩)
      · rw [recordSplit_startSeq, recordSplit_endSeq]
        have hend' := Option.some.inj hs
        exact ⟨le_rfl, hlo, .inr ⟨hend', .inl ⟨_, hmem, hend'⟩⟩⟩

/-! ## Where ranges become bundled -/

/-- The numbers at which an insertion of the data from `s` up to `e` may put a range. -/
def positions (l : List Entry) (s e : ℕ) : List ℕ :=
  s :: e :: (l.map (fun o => o.2.endSeq) ++ l.map Prod.fst).filter fun p => decide (s < p ∧ p < e)

theorem mem_positions {l : List Entry} {s e p : ℕ} :
    p ∈ positions l s e ↔ p = s ∨ p = e ∨
      ((∃ o ∈ l, o.2.endSeq = p) ∨ ∃ o ∈ l, o.1 = p) ∧ s < p ∧ p < e := by
  unfold positions
  simp only [List.mem_cons, List.mem_filter, List.mem_append, List.mem_map, decide_eq_true_eq]

/-- A range that starts at `p` has an RDB timestamp from now on, and none had before: the segment
bundles it, or a range with one is cut there. -/
def NewlyBundled (l : List Entry) (seg : DataSeg) (e p : ℕ) : Prop :=
  (∀ o ∈ l, o.1 = p → o.2.bundled = false) ∧
    ((p < e ∧ thisIsRdbData seg p = true) ∨ ∃ o ∈ l, o.2.bundled = true ∧ o.2.Inside p)

instance (l : List Entry) (seg : DataSeg) (e p : ℕ) : Decidable (NewlyBundled l seg e p) :=
  inferInstanceAs (Decidable (_ ∧ _))

/-- The entry keeps its marks; it is bundled only if its key is one of a bundled range of `m` or has
`Extra`. -/
structure HitKept (m : OrdMap ℕ ByteRange) (Extra : ℕ → Prop) (en : Entry) : Prop where
  deflt : en.2.recvType = .deflt
  counted : en.2.bundled = true → en.1 ∈ m.keysWith ByteRange.bundled ∨ Extra en.1
  flag : en.1 ∈ m.keysWith ByteRange.originalPacketIsRdb → en.2.originalPacketIsRdb = true

theorem hitKept_of_mem {m : OrdMap ℕ ByteRange} (Extra : ℕ → Prop) {en : Entry}
    (hen : en ∈ m.entries) (hdeflt : en.2.recvType = .deflt) : HitKept m Extra en := by
  refine ⟨hdeflt, fun hb => .inl (OrdMap.mem_keysWith.mpr ⟨en.2, hen, hb⟩), fun hflag => ?_⟩
  obtain ⟨r, hr, hflag⟩ := OrdMap.mem_keysWith.mp hflag
  rw [OrdMap.eq_of_mem hen hr]
  exact hflag

/-- A key that is free in the map is none of those with a mark. -/
theorem not_mem_keysWith {m : OrdMap ℕ ByteRange} {p : ByteRange → Bool} {k : ℕ}
    (hfree : ∀ o ∈ m.entries, o.1 ≠ k) : k ∉ m.keysWith p := by
  intro hk
  obtain ⟨r, hr, -⟩ := OrdMap.mem_keysWith.mp hk
  exact hfree _ hr rfl

section Data

variable (m : OrdMap ℕ ByteRange) (seg : DataSeg) (s₀ e : ℕ)

/-- The positions of the insertion that become bundled by it. -/
def BundledBy (p : ℕ) : Prop :=
  p ∈ positions m.entries s₀ e ∧ NewlyBundled m.entries seg e p

/-- During the insertion: a range ahead of the pass at `s` ends and starts at known positions, and is
cut as one of the ranges before the insertion was. -/
structure AheadOf (s : ℕ) (en : Entry) : Prop where
  stop : s ≤ en.2.endSeq → en.2.endSeq < e → en.2.endSeq ∈ positions m.entries s₀ e
  key : s < en.1 → en.1 < e → en.1 ∈ positions m.entries s₀ e
  cut : ∀ p, s ≤ p → en.2.Inside p → en.2.bundled = true →
    ∃ o ∈ m.entries, o.2.bundled = true ∧ o.2.Inside p

def Bundling (pos : Option ℕ) (en : Entry) : Prop :=
  HitKept m (BundledBy m seg s₀ e) en ∧ ∀ s, pos = some s → AheadOf m s₀ e s en

variable {m seg s₀ e}

/-- A position where a range becomes bundled is counted, unless one was bundled there before. -/
theorem counted_of_position {p : ℕ} (hp : p ∈ positions m.entries s₀ e)
    (hnew : (p < e ∧ thisIsRdbData seg p = true) ∨
      ∃ o ∈ m.entries, o.2.bundled = true ∧ o.2.Inside p) :
    p ∈ m.keysWith ByteRange.bundled ∨ BundledBy m seg s₀ e p := by
  by_cases hold : ∀ o ∈ m.entries, o.1 = p → o.2.bundled = false
  · exact .inr ⟨hp, hold, hnew⟩
  · push Not at hold
    obtain ⟨⟨k, r⟩, ho, rfl, hb⟩ := hold
    exact .inl (OrdMap.mem_keysWith.mpr ⟨r, ho, by simpa using hb⟩)

/-- The next pass starts at a known position. -/
theorem position_of_next {l : List Entry} {s s' : ℕ} (hl : ∀ en ∈ l, AheadOf m s₀ e s en)
    (hlo : s < s') (hhi : s' < e) (h : (∃ o ∈ l, o.2.endSeq = s') ∨ ∃ o ∈ l, o.1 = s') :
    s' ∈ positions m.entries s₀ e := by
  rcases h with ⟨o, ho, rfl⟩ | ⟨o, ho, rfl⟩
  · exact (hl o ho).stop hlo.le hhi
  · exact (hl o ho).key hlo hhi

theorem pieceKeeps_bundling (itype : InsertType) :
    PieceKeeps m itype seg e (fun s => s ∈ positions m.entries s₀ e)
      (Bundling m seg s₀ e) where
  next l s s' hl := position_of_next fun en hen => (hl en hen).2 s rfl
  old s next en h hnext := by
    refine ⟨h.1, fun s' hs' => ?_⟩
    have hle := (hnext s' hs').1
    have hahead := h.2 s rfl
    exact ⟨fun hend => hahead.stop (hle.le.trans hend), fun hkey => hahead.key (hle.trans hkey),
      fun p hp => hahead.cut p (hle.le.trans hp)⟩
  piece l s level next en hwf hkeys hlt hG hl hnext hpiece := by
    have hin := hpiece.inherits hwf hlt
    have hahead : ∀ o ∈ l, AheadOf m s₀ e s o := fun o ho => (hl o ho).2 s rfl
    have hfree : (∀ o ∈ l, o.1 ≠ en.1) → ∀ o ∈ m.entries, o.1 ≠ en.1 := OrdMap.free_of_kept hkeys
    refine ⟨⟨?_, fun hb => ?_, fun hflag => ?_⟩, fun s' hs' => ⟨fun hle _ => ?_, ?_, ?_⟩⟩
    · rcases hin.marks with ⟨r, hr, hmarks⟩ | ⟨-, hdeflt⟩
      · exact (congrArg Prod.fst hmarks).trans (hl _ hr).1.deflt
      · exact hdeflt
    · -- it was bundled before, the segment bundles it here, or it was cut off a bundled range
      rcases hin.bundled hb with ⟨r, hr, hb⟩ | ⟨hkey, hrdb⟩ | ⟨hkey, o, ho, hb, hinside⟩
      · exact (hl _ hr).1.counted hb
      · rw [hkey]
        exact counted_of_position hG (.inl ⟨hlt, hrdb⟩)
      · have hle : s ≤ en.1 := by omega
        have hpos : en.1 ∈ positions m.entries s₀ e := by
          rcases hkey with hkey | hkey
          · exact hkey ▸ hG
          · exact mem_positions.mpr (.inr (.inl hkey))
        exact counted_of_position hpos (.inr ((hahead o ho).cut en.1 hle hinside hb))
    · rcases hin.marks with ⟨r, hr, hmarks⟩ | ⟨hnew, -⟩
      · exact (congrArg Prod.snd hmarks).trans ((hl _ hr).1.flag hflag)
      · exact absurd hflag (not_mem_keysWith (hfree hnew))
    · obtain ⟨-, -, hend | ⟨hend, hstop⟩⟩ := hin.behind s' hs'
      · have := (hnext s' hs').1
        omega
      · rw [hend]
        exact position_of_next hahead (hnext s' hs').1 (hnext s' hs').2 hstop
    · intro hkey
      have := (hin.behind s' hs').1
      have := (hnext s' hs').1
      omega
    · intro p hp hinside
      obtain ⟨-, -, hend⟩ := hin.behind s' hs'
      have := (hnext s' hs').1
      have := hinside.2
      omega

end Data

/-! ## A bundle opens a range -/

/-- The data reaches past every range and takes over none without bytes, so that its last pass opens
a range; the data is a bundle. -/
def OpensRange (l : List Entry) (sd : SendData) : Prop :=
  sd.data.isRdb = true ∧ ∀ o ∈ l, o.2.endSeq < sd.data.endSeq ∧
    (o.2.endSeq = o.2.startSeq → o.1 < sd.data.seq)

instance (l : List Entry) (sd : SendData) : Decidable (OpensRange l sd) :=
  inferInstanceAs (Decidable (_ ∧ _))

section Opens

variable {rm rm' : RangeManager} {seg : DataSeg} {level s e fuel : ℕ} {ret : Bool}

/-- Over ranges that all end before `e`, only the pass that opens a range is the last. -/
theorem insertBody_opens (hwf : WfEntries rm.ranges.entries) (hlt : s < e)
    (hsize : e - s < 2 ^ 16 - 1)
    (hends : ∀ o ∈ rm.ranges.entries, o.2.endSeq < e ∧ (o.2.endSeq = o.2.startSeq → o.1 < s))
    (h : rm.insertBody s e .sent seg level = .ok (.done rm' ret)) :
    (∀ o ∈ rm.ranges.entries, o.1 ≠ s) ∧ (s, freshRange seg s e) ∈ rm'.ranges.entries := by
  have hnew : rm.ranges.find? s = none → rm.insertNew s e .sent seg = .ok (.done rm' ret) →
      (s, freshRange seg s e) ∈ rm'.ranges.entries := by
    intro hfree h
    obtain ⟨r, hr, h⟩ := Run.exists_of_bind_ok h
    rw [newDataRange_eq hlt hsize] at hr
    split at hr
    · cases hr
    · obtain rfl := Except.ok.inj hr
      obtain ⟨rfl, -⟩ := Outcome.done.inj (Except.ok.inj h)
      show (s, freshRange seg s e) ∈ (rm.ranges.insert s (freshRange seg s e)).entries
      rw [OrdMap.entries_insert_of_find?_eq_none hfree]
      exact List.mem_append_right _ List.mem_cons_self
  unfold insertBody at h
  rw [if_neg hlt.ne] at h
  cases hfind : rm.ranges.find? s with
  | none =>
      rw [hfind] at h
      dsimp only at h
      refine ⟨OrdMap.find?_eq_none_iff.mp hfind, ?_⟩
      unfold insertNotFound at h
      split at h
      · split at h
        · cases h
        · next w ws hw =>
            rw [← hw] at h
            split at h
            · next key r hkr =>
                -- the range the data starts in ends before the data
                have hmem := mem_entries_of_mem_searchWindow (List.mem_of_find?_eq_some hkr)
                have hhold : r.Holds s := by
                  simpa [ByteRange.Holds] using List.find?_some hkr
                have hkey := key_lt_of_holds hwf hfind hmem hhold
                have hr : key = r.startSeq ∧ r.Wf := hwf _ hmem
                rw [if_neg (by simp), splitExisting_beyond hr.2 (by omega) hhold.2
                  (hends _ hmem).1] at h
                cases h
            · exact hnew hfind h
      · exact hnew hfind h
  | some r =>
      rw [hfind] at h
      dsimp only at h
      have hmem := OrdMap.find?_eq_some_iff.mp hfind
      have hr : s = r.startSeq ∧ r.Wf := hwf _ hmem
      have hbytes : r.byteCount ≠ 0 := by
        intro hzero
        have hsize := hr.2.size
        have hempty : r.endSeq = r.startSeq := by omega
        exact absurd ((hends _ hmem).2 hempty) (lt_irrefl s)
      rw [insertFound_span_sent (hends _ hmem).1 hbytes] at h
      split at h
      · cases h
      · cases h

theorem insertLoop_opens (hrdb : seg.isRdb = true) (hwf : WfEntries rm.ranges.entries) (hlt : s < e)
    (hsize : e - s < 2 ^ 16 - 1)
    (hends : ∀ o ∈ rm.ranges.entries, o.2.endSeq < e ∧ (o.2.endSeq = o.2.startSeq → o.1 < s))
    (h : insertLoop e .sent seg fuel rm s level = .ok (rm', ret)) :
    ∃ k, (∀ o ∈ rm.ranges.entries, o.1 ≠ k) ∧
      k ∈ rm'.ranges.keysWith ByteRange.originalPacketIsRdb := by
  -- the last pass makes the new range; the passes before it only meet ranges that end below `e`
  induction fuel generalizing rm s level with
  | zero => cases h
  | succ fuel ih =>
      rw [insertLoop] at h
      split at h
      · cases h
      · next hbody =>
          obtain ⟨rfl, rfl⟩ := Prod.mk.inj (Except.ok.inj h)
          obtain ⟨hfree, hmem⟩ := insertBody_opens hwf hlt hsize hends hbody
          refine ⟨s, hfree, OrdMap.mem_keysWith.mpr ⟨_, hmem, ?_⟩⟩
          exact (finSet_blind seg _ (f := ByteRange.originalPacketIsRdb) fun _ _ => rfl).trans hrdb
      · next rm₁ s₁ hbody =>
          have hsent : InsertType.sent ≠ .sojourn := by simp
          have hmade := insertBody_madeOf hwf hlt (fun _ => hsize) hsent (fun h => by cases h) hbody
          obtain ⟨hlo, hhi⟩ := hmade.bounds s₁ rfl
          have hpieces : ∀ en ∈ rm₁.ranges.entries, en ∈ rm.ranges.entries ∨
              Inherits rm.ranges.entries seg s e (some s₁) en ∧ en.1 = en.2.startSeq ∧ en.2.Wf :=
            fun en hen => (hmade.entries en hen).imp_right fun hpiece =>
              ⟨hpiece.inherits hwf hlt, hpiece.wf hwf hlt⟩
          have hwf₁ : WfEntries rm₁.ranges.entries := fun en hen =>
            (hpieces en hen).elim (hwf en) And.right
          have hends₁ : ∀ o ∈ rm₁.ranges.entries,
              o.2.endSeq < e ∧ (o.2.endSeq = o.2.startSeq → o.1 < s₁) := by
            intro o ho
            rcases hpieces o ho with ho | ⟨hin, -⟩
            · exact ⟨(hends o ho).1, fun hzero => ((hends o ho).2 hzero).trans hlo⟩
            · obtain ⟨-, hbytes, hend⟩ := hin.behind s₁ rfl
              exact ⟨by omega, fun hzero => by omega⟩
          obtain ⟨k, hfree, hk⟩ := ih hwf₁ hhi (by omega) hends₁ h
          exact ⟨k, OrdMap.free_of_kept hmade.keys hfree, hk⟩

end Opens

/-! ## Keys are never lost -/

theorem insertByteRange_keysKept {rm rm' : RangeManager} {s e : ℕ} {itype : InsertType}
    {seg : DataSeg} {ret : Bool} (hwf : WfEntries rm.ranges.entries) (hle : s ≤ e)
    (hsize : itype = .sent → e - s < 2 ^ 16 - 1) (hitype : itype ≠ .sojourn)
    (h : rm.insertByteRange s e itype seg 0 = .ok (rm', ret)) :
    OrdMap.KeysKept rm.ranges rm'.ranges := by
  rcases Nat.eq_or_lt_of_le hle with rfl | hlt
  · unfold insertByteRange at h
    rw [insertLoop] at h
    unfold insertBody insertEmpty at h
    rw [if_pos rfl] at h
    dsimp only at h
    cases hfind : rm.ranges.find? (rm.emptySeq seg s) with
    | none =>
        rw [hfind, newEmptyRange_eq] at h
        obtain ⟨rfl, -⟩ := Prod.mk.inj (Except.ok.inj h)
        exact OrdMap.keysKept_insert _ _ _
    | some r =>
        rw [hfind] at h
        obtain ⟨rfl, -⟩ := Prod.mk.inj (Except.ok.inj h)
        exact OrdMap.keysKept_modify _ _ _
  · have hkeeps := pieceKeeps_true rm.ranges itype seg e
    exact (insertLoop_forall hitype hkeeps (.refl _) hlt trivial hsize hwf (fun _ _ => trivial) h).1

/-! ## Steps -/

/-- What sent packets and ACKs may do: make one range bundled if the packet is itself a bundle that
opens a range, and none otherwise. -/
def KeepsHits (rm : RangeManager) : SenderEvent → Prop
  | .sent sd =>
      if sd.data.payloadSize = 0 then thisIsRdbData sd.data sd.data.seq = false
      else
        ∀ p ∈ positions rm.ranges.entries sd.data.seq sd.data.endSeq,
          NewlyBundled rm.ranges.entries sd.data sd.data.endSeq p →
            OpensRange rm.ranges.entries sd ∧
              ∀ q ∈ positions rm.ranges.entries sd.data.seq sd.data.endSeq,
                NewlyBundled rm.ranges.entries sd.data sd.data.endSeq q → q = p
  | .ack seg => ∀ o ∈ rm.ranges.entries, o.2.bundled = true → ¬o.2.Inside seg.ack

instance (rm : RangeManager) : (ev : SenderEvent) → Decidable (KeepsHits rm ev)
  | .sent sd => inferInstanceAs (Decidable (if sd.data.payloadSize = 0 then _ else _))
  | .ack seg => inferInstanceAs (Decidable (∀ o ∈ rm.ranges.entries, _ → ¬o.2.Inside seg.ack))

/-- Received data cuts no bundled range. -/
def KeepsHitsReceived (rm : RangeManager) (sd : SendData) : Prop :=
  sd.data.seq < sd.data.endSeq →
    ∀ p ∈ positions rm.ranges.entries sd.data.seq sd.data.endSeq,
      ¬NewlyBundled rm.ranges.entries (receivedSeg sd) sd.data.endSeq p

instance (rm : RangeManager) (sd : SendData) : Decidable (KeepsHitsReceived rm sd) :=
  inferInstanceAs (Decidable (_ → _))

/-- As many ranges were opened by bundles as are bundled. -/
structure HitInv (rm : RangeManager) : Prop where
  wf : WfEntries rm.ranges.entries
  deflt : ∀ en ∈ rm.ranges.entries, en.2.recvType = .deflt
  le : (rm.ranges.entries.countP fun e => e.2.bundled) ≤
    rm.ranges.entries.countP fun e => e.2.originalPacketIsRdb

section Steps

variable {rm rm' : RangeManager} {sd : SendData} {seg : DataSeg}

/-- `opened` are the keys of ranges that a bundle has opened in this step. -/
theorem HitInv.step (hinv : HitInv rm) {Extra : ℕ → Prop} (extra opened : List ℕ)
    (hkeys : OrdMap.KeysKept rm.ranges rm'.ranges) (hwf : WfEntries rm'.ranges.entries)
    (hkept : ∀ en ∈ rm'.ranges.entries, HitKept rm.ranges Extra en)
    (hextra : ∀ k, Extra k → k ∈ extra) (hlen : extra.length ≤ opened.length)
    (hnodup : opened.Nodup) (hfree : ∀ k ∈ opened, ∀ o ∈ rm.ranges.entries, o.1 ≠ k)
    (hopened : ∀ k ∈ opened, k ∈ rm'.ranges.keysWith ByteRange.originalPacketIsRdb) :
    HitInv rm' := by
  refine ⟨hwf, fun en hen => (hkept en hen).deflt, ?_⟩
  have hbundled : (rm'.ranges.entries.countP fun e => e.2.bundled) ≤
      (rm.ranges.entries.countP fun e => e.2.bundled) + extra.length :=
    OrdMap.countP_le_add fun k r hr hb => ((hkept _ hr).counted hb).imp_right (hextra k)
  have hflags : ∀ k ∈ rm.ranges.keysWith ByteRange.originalPacketIsRdb,
      k ∈ rm'.ranges.keysWith ByteRange.originalPacketIsRdb := by
    intro k hk
    obtain ⟨r, hr, -⟩ := OrdMap.mem_keysWith.mp hk
    obtain ⟨⟨k', r'⟩, hr', rfl⟩ := hkeys _ hr
    exact OrdMap.mem_keysWith.mpr ⟨r', hr', (hkept _ hr').flag hk⟩
  have hpackets := OrdMap.countP_add_le hnodup (fun k hk => not_mem_keysWith (hfree k hk)) hopened
    hflags
  have := hinv.le
  omega

/-- A step that makes no range bundled. -/
theorem HitInv.step_none (hinv : HitInv rm) {Extra : ℕ → Prop}
    (hkeys : OrdMap.KeysKept rm.ranges rm'.ranges) (hwf : WfEntries rm'.ranges.entries)
    (hkept : ∀ en ∈ rm'.ranges.entries, HitKept rm.ranges Extra en) (hnone : ∀ k, ¬Extra k) :
    HitInv rm' :=
  hinv.step [] [] hkeys hwf hkept (fun k hk => absurd hk (hnone k)) le_rfl List.nodup_nil
    (fun _ h => absurd h List.not_mem_nil) fun _ h => absurd h List.not_mem_nil

theorem HitInv.kept (hinv : HitInv rm) (Extra : ℕ → Prop) :
    ∀ en ∈ rm.ranges.entries, HitKept rm.ranges Extra en :=
  fun en hen => hitKept_of_mem Extra hen (hinv.deflt en hen)

theorem emptyKeeps_hitKept (itype : InsertType) (hrdb : thisIsRdbData seg seg.seq = false) :
    EmptyKeeps itype seg rm (HitKept rm.ranges fun _ => False) := by
  constructor
  · intro hnone
    have hfree := OrdMap.find?_eq_none_iff.mp hnone
    refine ⟨rfl, fun hb => ?_, fun hflag => absurd hflag (not_mem_keysWith hfree)⟩
    unfold emptyRange at hb
    rw [bundled_recordSent, hrdb] at hb
    cases hb
  · intro r hr h
    have hmarks : marks (recordEmpty seg itype 0 (thisIsRdbData seg seg.seq) r) = marks r :=
      recordEmpty_blind itype seg 0 _ r (fun _ _ _ => rfl) (fun _ _ => rfl) (fun _ _ => rfl)
        (fun r => increaseReceived_blind r fun _ _ _ _ => rfl) fun _ _ => rfl
    have hb : (recordEmpty seg itype 0 (thisIsRdbData seg seg.seq) r).bundled = r.bundled := by
      rw [hrdb]
      apply recordEmpty_blind itype seg 0 false r (fun _ _ _ => rfl) (fun _ _ => rfl)
        (fun sentT r => ?_) (fun r => increaseReceived_blind r fun _ _ _ _ => rfl) fun _ _ => rfl
      rw [bundled_recordSent, Bool.or_false]
    refine ⟨(congrArg Prod.fst hmarks).trans h.deflt, ?_, fun hflag => ?_⟩
    · rw [hb]
      exact h.counted
    · exact (congrArg Prod.snd hmarks).trans (h.flag hflag)

/-- All entries before data is inserted. -/
theorem bundling_start (hinv : HitInv rm) (seg : DataSeg) (s e : ℕ) :
    ∀ en ∈ rm.ranges.entries, Bundling rm.ranges seg s e (some s) en := by
  intro en hen
  refine ⟨hinv.kept _ en hen, fun s' hs' => ?_⟩
  obtain rfl := Option.some.inj hs'
  refine ⟨fun hle hlt => ?_, fun hlo hlt => ?_, fun p _ hinside hb => ⟨en, hen, hb, hinside⟩⟩
  · rcases Nat.eq_or_lt_of_le hle with heq | hgt
    · exact mem_positions.mpr (.inl heq.symm)
    · exact mem_positions.mpr (.inr (.inr ⟨.inl ⟨en, hen, rfl⟩, hgt, hlt⟩))
  · exact mem_positions.mpr (.inr (.inr ⟨.inr ⟨en, hen, rfl⟩, hlo, hlt⟩))

theorem insertSentRange_hits (hinv : HitInv rm) (hsd : Sized sd) (hok : KeepsHits rm (.sent sd))
    (h : rm.insertSentRange sd = .ok rm') : HitInv rm' := by
  have hend := hsd.size
  have hbound := hsd.bound
  have hle : sd.data.seq ≤ sd.data.endSeq := by omega
  have hkeys : OrdMap.KeysKept rm.ranges rm'.ranges := by
    obtain ⟨rm₁, ret, hins, rfl⟩ := insertSentRange_cases h
    have hsent : InsertType.sent ≠ .sojourn := by simp
    have hkept := insertByteRange_keysKept hinv.wf hle (fun _ => by omega) hsent hins
    exact hkept
  rw [KeepsHits] at hok
  by_cases hsize : sd.data.payloadSize = 0
  · rw [if_pos hsize] at hok
    have hempty : EmptyKeeps .sent sd.data rm (HitKept rm.ranges fun _ => False) :=
      emptyKeeps_hitKept .sent hok
    obtain ⟨hwf, hkept⟩ := insertSentRange_forall (G := fun _ => True) (Q := fun _ _ => False) hsd
      (fun _ => hempty) (fun hdata => absurd hsize hdata) (fun _ h => h.elim) hinv.wf (hinv.kept _) h
    exact hinv.step_none hkeys hwf hkept fun _ h => h
  · rw [if_neg hsize] at hok
    have hG : sd.data.seq ∈ positions rm.ranges.entries sd.data.seq sd.data.endSeq :=
      mem_positions.mpr (.inl rfl)
    obtain ⟨hwf, hkept⟩ := insertSentRange_forall
      (G := fun s => s ∈ positions rm.ranges.entries sd.data.seq sd.data.endSeq)
      (Q := Bundling rm.ranges sd.data sd.data.seq sd.data.endSeq) hsd
      (fun hempty => absurd hempty hsize)
      (fun _ => ⟨pieceKeeps_bundling .sent, hG, bundling_start hinv sd.data sd.data.seq _⟩)
      (fun _ h => h.1) hinv.wf (hinv.kept _) h
    -- one more bundled range, which the new range at `k` pays for; or none
    by_cases hnew : ∃ p, BundledBy rm.ranges sd.data sd.data.seq sd.data.endSeq p
    · obtain ⟨p, hp⟩ := hnew
      obtain ⟨hopens, hone⟩ := hok p hp.1 hp.2
      obtain ⟨rm₁, ret, hins, rfl⟩ := insertSentRange_cases h
      have hends : ∀ o ∈ rm.ranges.entries, o.2.endSeq < sd.data.endSeq ∧
          (o.2.endSeq = o.2.startSeq → o.1 < sd.data.seq) := hopens.2
      obtain ⟨k, hfree, hk⟩ := insertLoop_opens hopens.1 hinv.wf (by omega) (by omega) hends hins
      refine hinv.step [p] [k] hkeys hwf hkept (fun q hq => ?_) le_rfl (List.nodup_singleton k) ?_ ?_
      · exact List.mem_singleton.mpr (hone q hq.1 hq.2)
      · rw [List.forall_mem_singleton]
        exact hfree
      · rw [List.forall_mem_singleton]
        exact hk
    · exact hinv.step_none hkeys hwf hkept fun p hp => hnew ⟨p, hp⟩

/-- An ACK that cuts no bundled range. -/
theorem ackKeeps_hitKept (seg : DataSeg) :
    AckKeeps rm.ranges.entries seg fun en => HitKept rm.ranges (fun _ => False) en ∧
      (en.2.bundled = true → ¬en.2.Inside seg.ack) where
  exact _ r b h := by
    have hmarks : marks (ackExact seg b r) = marks r :=
      ackExact_blind seg r _ b (fun _ _ => rfl) (fun _ _ => rfl) (fun _ => rfl) (fun _ => rfl)
        fun _ _ => rfl
    have hb : (ackExact seg b r).bundled = r.bundled :=
      ackExact_blind seg r _ b (fun _ _ => rfl) (fun _ _ => rfl) (fun _ => rfl) (fun _ => rfl)
        fun _ _ => rfl
    rw [inside_congr (ackExact_startSeq seg r b) (ackExact_endSeq seg r b), hb]
    refine ⟨⟨(congrArg Prod.fst hmarks).trans h.1.deflt, ?_, fun hflag => ?_⟩, h.2⟩
    · rw [hb]
      exact h.1.counted
    · exact (congrArg Prod.snd hmarks).trans (h.1.flag hflag)
  mark _ r h := by
    unfold markAcked
    split
    · exact h
    · exact ⟨⟨h.1.deflt, h.1.counted, h.1.flag⟩, h.2⟩
  count _ _ h := ⟨⟨h.1.deflt, h.1.counted, h.1.flag⟩, h.2⟩
  part _ r _ _ hlo hhi h := by
    have hno : ¬r.bundled = true := fun hb => h.2 hb ⟨hlo, hhi⟩
    refine ⟨⟨⟨h.1.deflt, fun hb => absurd hb hno, h.1.flag⟩, fun hb => absurd hb hno⟩,
      fun hfree => ⟨⟨rfl, fun hb => absurd hb hno, fun hflag => ?_⟩, fun hb => absurd hb hno⟩⟩
    exact absurd hflag (not_mem_keysWith hfree)

theorem senderStep_hits {ev : SenderEvent} (hinv : HitInv rm) (hsized : ev.Sized)
    (hok : KeepsHits rm ev) (h : senderStep rm ev = .ok rm') : HitInv rm' := by
  cases ev with
  | sent sd => exact insertSentRange_hits hinv hsized hok h
  | ack seg =>
      have hno : ∀ o ∈ rm.ranges.entries, o.2.bundled = true → ¬o.2.Inside seg.ack := hok
      obtain ⟨hkeys, hwf, hkept⟩ := ackStep_forall (ackKeeps_hitKept seg) hinv.wf
        (fun en hen => ⟨hinv.kept _ en hen, hno en hen⟩) h
      exact hinv.step_none hkeys hwf (fun en hen => (hkept en hen).1) fun _ h => h

theorem insertReceivedRange_hits (hinv : HitInv rm) (hle : sd.data.seq ≤ sd.data.endSeq)
    (hok : KeepsHitsReceived rm sd) (h : rm.insertReceivedRange sd = .ok rm') : HitInv rm' := by
  have hkeys : OrdMap.KeysKept rm.ranges rm'.ranges := by
    obtain ⟨⟨rm₁, ret⟩, hins, hrm⟩ := Run.exists_of_bind_ok h
    obtain rfl : rm₁ = rm' := Except.ok.inj hrm
    have hrecv : InsertType.recv ≠ .sojourn := by simp
    exact insertByteRange_keysKept hinv.wf hle (fun h => by cases h) hrecv hins
  -- the copied segment has no `rdb_end_seq`
  have hrdb : thisIsRdbData (receivedSeg sd) (receivedSeg sd).seq = false := by
    unfold thisIsRdbData receivedSeg
    simp
  rcases Nat.eq_or_lt_of_le hle with heq | hlt
  · obtain ⟨hwf, hkept⟩ := insertReceivedRange_forall (G := fun _ => True) (Q := fun _ _ => False)
      (P := HitKept rm.ranges fun _ => False) hle
      (fun _ => emptyKeeps_hitKept .recv hrdb) (fun hdata => absurd heq hdata.ne)
      (fun _ h => h.elim) hinv.wf (hinv.kept _) h
    exact hinv.step_none hkeys hwf hkept fun _ h => h
  · have hG : sd.data.seq ∈ positions rm.ranges.entries sd.data.seq sd.data.endSeq :=
      mem_positions.mpr (.inl rfl)
    obtain ⟨hwf, hkept⟩ := insertReceivedRange_forall
      (G := fun s => s ∈ positions rm.ranges.entries sd.data.seq sd.data.endSeq)
      (Q := Bundling rm.ranges (receivedSeg sd) sd.data.seq sd.data.endSeq)
      (P := HitKept rm.ranges (BundledBy rm.ranges (receivedSeg sd) sd.data.seq sd.data.endSeq)) hle
      (fun hempty => absurd hempty hlt.ne)
      (fun _ => ⟨pieceKeeps_bundling .recv, hG, bundling_start hinv _ _ _⟩)
      (fun _ h => h.1) hinv.wf (hinv.kept _) h
    exact hinv.step_none hkeys hwf hkept fun p hp => hok hlt p hp.1 hp.2

end Steps

/-! ## Runs -/

/-- In every run whose packets make at most one range bundled for each range that a bundle opens, no
more RDB hits than RDB packets are counted. -/
theorem calculateRealLoss_run_hits_le {firstSeq : ℕ} {evs : List SenderEvent}
    {rcvd : List SendData} {rm rm' : RangeManager} (hsized : ∀ ev ∈ evs, ev.Sized)
    (hsent : Run.Steps senderStep KeepsHits (new firstSeq) evs)
    (hrun : Run.run senderStep (new firstSeq) evs = .ok rm)
    (hrcvd : ∀ sd ∈ rcvd, sd.data.seq ≤ sd.data.endSeq)
    (hrecv : Run.Steps insertReceivedRange KeepsHitsReceived rm rcvd)
    (hrun' : Run.run insertReceivedRange rm rcvd = .ok rm') (withRecv : Bool) :
    (calculateRealLoss withRecv rm'.ranges.entries).rdbPacketHits ≤
        (calculateRealLoss withRecv rm'.ranges.entries).analysedRdbPacketCount ∧
      0 ≤ (calculateRealLoss withRecv rm'.ranges.entries).rdbPacketMisses := by
  have hinit : HitInv (new firstSeq) :=
    ⟨wfEntries_nil, fun en hen => absurd hen List.not_mem_nil, le_rfl⟩
  have hfirst : HitInv rm := Run.invariant (I := fun rm _ => HitInv rm) (d := [])
    (fun _ _ _ _ hinv hok hstep => senderStep_hits hinv hok.2 hok.1 hstep) hinit
    (hsent.and_forall hsized) hrun
  have hinv : HitInv rm' := Run.invariant (I := fun rm _ => HitInv rm) (d := [])
    (fun _ _ _ _ hinv hok hstep => insertReceivedRange_hits hinv hok.2 hok.1 hstep) hfirst
    (hrecv.and_forall hrcvd) hrun'
  obtain ⟨hhits, hpackets⟩ := foldl_addRange_rdb withRecv rm'.ranges.entries {}
  have hle : (calculateRealLoss withRecv rm'.ranges.entries).rdbPacketHits ≤
      (calculateRealLoss withRecv rm'.ranges.entries).analysedRdbPacketCount := by
    show LossTotals.rdbPacketHits (List.foldl _ _ _) ≤
      LossTotals.analysedRdbPacketCount (List.foldl _ _ _)
    rw [hhits, hpackets]
    have hcandidates := countP_hits_le withRecv hinv.deflt
    have hbundles := hinv.le
    exact Nat.add_le_add_left (hcandidates.trans hbundles) 0
  refine ⟨hle, ?_⟩
  show (0 : ℤ) ≤ ((calculateRealLoss withRecv rm'.ranges.entries).analysedRdbPacketCount : ℤ) -
    (calculateRealLoss withRecv rm'.ranges.entries).rdbPacketHits
  omega

/-- A segment and a bundle that repeats it. -/
def oneBundle : List SenderEvent :=
  [.sent fourBytes,
    .sent { data :=
      { endSeq := 8, payloadSize := 8, isRdb := true, rdbEndSeq := 4, tstampTcp := 8 } }]

/-- Only the bundle arrives. -/
def bundleArrives (endSeq : ℕ) : List SendData :=
  [{ data := { endSeq := endSeq, payloadSize := endSeq, tstampTcp := 8 } }]

theorem calculateRealLoss_run_hits_le_one :
    ∃ rm rm', Run.run senderStep (new 0) oneBundle = .ok rm ∧
      Run.run insertReceivedRange rm (bundleArrives 8) = .ok rm' ∧
      (calculateRealLoss true rm'.ranges.entries).rdbPacketHits = 1 ∧
      (calculateRealLoss true rm'.ranges.entries).rdbPacketHits ≤
        (calculateRealLoss true rm'.ranges.entries).analysedRdbPacketCount := by
  have hall : ((Run.run senderStep (new 0) oneBundle).toOption.any fun rm =>
      decide (Run.Steps insertReceivedRange KeepsHitsReceived rm (bundleArrives 8)) &&
      (Run.run insertReceivedRange rm (bundleArrives 8)).toOption.any fun rm' =>
        decide ((calculateRealLoss true rm'.ranges.entries).rdbPacketHits = 1)) = true := by decide
  obtain ⟨rm, hrun, hall⟩ := Run.exists_of_any_toOption hall
  rw [Bool.and_eq_true, decide_eq_true_eq] at hall
  obtain ⟨rm', hrun', hhits⟩ := Run.exists_of_any_toOption hall.2
  have hle := calculateRealLoss_run_hits_le (by decide) (by decide) hrun (by decide) hall.1 hrun' true
  exact ⟨rm, rm', hrun, hrun', of_decide_eq_true hhits, hle.1⟩

/-- Two segments and a bundle that repeats both. -/
def bundleOverTwo : List SenderEvent :=
  [.sent fourBytes,
    .sent { data := { seq := 4, endSeq := 8, payloadSize := 4, tstampTcp := 7 } },
    .sent { data :=
      { endSeq := 12, payloadSize := 12, isRdb := true, rdbEndSeq := 8, tstampTcp := 8 } }]

/-- Both segments are lost: two hits for one packet. -/
theorem calculateRealLoss_hits_exceed_packets :
    ∃ rm rm', Run.run senderStep (new 0) bundleOverTwo = .ok rm ∧
      Run.run insertReceivedRange rm (bundleArrives 12) = .ok rm' ∧
      (calculateRealLoss true rm'.ranges.entries).rdbPacketHits = 2 ∧
      (calculateRealLoss true rm'.ranges.entries).analysedRdbPacketCount = 1 ∧
      (calculateRealLoss true rm'.ranges.entries).rdbPacketMisses = -1 := by
  have hall : ((Run.run senderStep (new 0) bundleOverTwo).toOption.any fun rm =>
      (Run.run insertReceivedRange rm (bundleArrives 12)).toOption.any fun rm' =>
        decide ((calculateRealLoss true rm'.ranges.entries).rdbPacketHits = 2 ∧
          (calculateRealLoss true rm'.ranges.entries).analysedRdbPacketCount = 1 ∧
          (calculateRealLoss true rm'.ranges.entries).rdbPacketMisses = -1)) = true := by decide
  obtain ⟨rm, hrun, hall⟩ := Run.exists_of_any_toOption hall
  obtain ⟨rm', hrun', hall⟩ := Run.exists_of_any_toOption hall
  exact ⟨rm, rm', hrun, hrun', of_decide_eq_true hall⟩

end RangeManager

end AnalyseTCP
