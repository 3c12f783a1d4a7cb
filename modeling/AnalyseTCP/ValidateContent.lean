import AnalyseTCP.LastSeq
import AnalyseTCP.SentBytes
import AnalyseTCP.SentCounts

/-!
# `RangeManager::validateContent`

The program's own check of what the sender's passes have built, which `-V` turns off: the ranges
start at 0, end where `lastSeq` is, leave no hole between them, and the byte counters of the
connection balance.  It warns and goes on.  On a session that was captured without a hole it has
nothing to say, unless no more than pure ACKs were seen: `lastSeq - 1` is then taken from 0.
-/

namespace AnalyseTCP

/-- What `validateContent` warns about. -/
inductive ContentWarning
  /-- `firstSeq != StartSeq` -/
  | firstSeq (startSeq : ℕ)
  /-- `lastSeq unaligned!` -/
  | lastSeq (lastSeq endSeq : ℕ)
  /-- `conn->totBytesSent` is not the sum of the other three -/
  | totBytesSent (calculated : ℕ)
  /-- `Byte-stream in ranges not continuous.`, between the two ranges that are printed -/
  | notContinuous (prevStart prevEnd startSeq endSeq : ℕ)
deriving DecidableEq, Repr

namespace RangeManager

/-- A range that is not the first.  `prev` is unset at the second range, since the first one leaves
the loop's body before it is stored. -/
def validateRange (prev : Option ByteRange) (tmpEndSeq : ℕ) (r : ByteRange) : List ContentWarning :=
  if r.startSeq = tmpEndSeq then []
  else
    match prev with
    | none => []
    | some p =>
        -- they are not equal when one of them has no payload
        if p.byteCount = 0 ∨ r.byteCount = 0 then []
        else [.notContinuous p.startSeq p.endSeq r.startSeq r.endSeq]

/-- The loop over the ranges behind the first. -/
def validateLoop : Option ByteRange → ℕ → List Entry → List ContentWarning
  | _, _, [] => []
  | prev, tmpEndSeq, en :: l =>
      validateRange prev tmpEndSeq en.2 ++ validateLoop (some en.2) en.2.endSeq l

end RangeManager

/-- `rm->validateContent()`; without a range, `begin()` is dereferenced all the same. -/
def Connection.validateContent (conn : Connection) : Except Abort (List ContentWarning) :=
  match conn.rm.ranges.entries with
  | [] => .error .outOfRange
  | first :: rest =>
      let last := ((first :: rest).getLast (List.cons_ne_nil _ _)).2
      let calculated :=
        add64 (add64 conn.totNewDataSent conn.totRDBBytesSent) conn.totRetransBytesSent
      .ok ((if first.2.startSeq ≠ 0 then [.firstSeq first.2.startSeq] else []) ++
        (if last.endSeq ≤ conn.rm.lastSeq ∧ sub64 conn.rm.lastSeq 1 ≤ last.endSeq then []
          else [.lastSeq conn.rm.lastSeq last.endSeq]) ++
        (if conn.totBytesSent ≠ calculated then [.totBytesSent calculated] else []) ++
        RangeManager.validateLoop none first.2.endSeq rest)

namespace RangeManager

/-! ## Ranges without a hole -/

/-- No byte is missing between two ranges with bytes. -/
def NoHole (l : List Entry) : Prop :=
  ∀ a ∈ l, ∀ b ∈ l, a.2.startSeq < a.2.endSeq → b.2.startSeq < b.2.endSeq →
    ∀ x, a.2.endSeq ≤ x → x < b.2.startSeq → Covered l x

/-- Neighbours with bytes touch. -/
theorem touch_of_noHole {pre rest : List Entry} {a b : Entry}
    (hwf : WfEntries (pre ++ a :: b :: rest)) (hsep : Separated (pre ++ a :: b :: rest))
    (hhole : NoHole (pre ++ a :: b :: rest)) (ha : a.2.startSeq < a.2.endSeq)
    (hb : b.2.startSeq < b.2.endSeq) : b.2.startSeq = a.2.endSeq := by
  obtain ⟨-, htail, hpre⟩ := separated_append.mp hsep
  obtain ⟨hafter, htail⟩ := separated_cons.mp htail
  obtain ⟨hrest, -⟩ := separated_cons.mp htail
  have hle : a.2.endSeq ≤ b.2.startSeq := hafter b List.mem_cons_self
  by_contra hne
  obtain ⟨en, hen, hlo, hhi⟩ := hhole a (by simp) b (by simp) ha hb a.2.endSeq le_rfl (by omega)
  -- whatever holds the byte behind `a` lies before `a`, is one of the two, or lies behind `b`
  simp only [List.mem_append, List.mem_cons] at hen
  rcases hen with hen | rfl | rfl | hen
  · have := hpre en hen a List.mem_cons_self
    omega
  · omega
  · omega
  · have := hrest en hen
    omega

theorem validateLoop_eq_nil (pre : List Entry) {rest : List Entry} {a : Entry}
    (hwf : WfEntries (pre ++ a :: rest)) (hsep : Separated (pre ++ a :: rest))
    (hhole : NoHole (pre ++ a :: rest)) (prev : Option ByteRange) (hprev : ∀ p ∈ prev, p = a.2) :
    validateLoop prev a.2.endSeq rest = [] := by
  induction rest generalizing pre a prev with
  | nil => rfl
  | cons b rest ih =>
      have hbytes : ∀ en ∈ pre ++ a :: b :: rest, en.2.byteCount ≠ 0 →
          en.2.startSeq < en.2.endSeq := by
        intro en hen hne
        have hsize := (hwf en hen).2.size
        omega
      have hhere : validateRange prev a.2.endSeq b.2 = [] := by
        unfold validateRange
        split
        · rfl
        · next hne =>
          split
          · rfl
          · next p =>
            obtain rfl : p = a.2 := hprev p rfl
            by_cases hzero : a.2.byteCount = 0 ∨ b.2.byteCount = 0
            · rw [if_pos hzero]
            · push Not at hzero
              exact absurd (touch_of_noHole hwf hsep hhole (hbytes a (by simp) hzero.1)
                (hbytes b (by simp) hzero.2)) hne
      have happend : pre ++ a :: b :: rest = (pre ++ [a]) ++ b :: rest := by simp
      rw [happend] at hwf hsep hhole
      rw [validateLoop, hhere, ih (pre ++ [a]) hwf hsep hhole (some b.2) (by simp)]
      rfl

/-- The last range of the map ends last. -/
theorem endSeq_getLast {l : List Entry} (hwf : WfEntries l) (hsep : Separated l) (hne : l ≠ []) :
    (l.getLast hne).2.endSeq = maxEnd l := by
  apply le_antisymm (le_maxEnd (List.getLast_mem hne))
  apply maxEnd_le
  intro en hen
  have hl := List.dropLast_append_getLast hne
  rw [← hl] at hen
  rcases List.mem_append.mp hen with hen | hen
  · rw [← hl] at hsep
    have hle := (separated_append.mp hsep).2.2 en hen _ List.mem_cons_self
    have hlast := (hwf _ (List.getLast_mem hne)).2.le
    omega
  · rw [List.mem_singleton.mp hen]

/-- What `validateContent` relies on: ranges from 0 up to `lastSeq`, without a hole. -/
structure Complete (rm : RangeManager) : Prop where
  apart : rm.Apart
  noHole : NoHole rm.ranges.entries
  start : ∃ en ∈ rm.ranges.entries, en.1 = 0
  tracks : rm.Tracks

end RangeManager

theorem Connection.validateContent_of_complete {conn : Connection} (hrm : conn.rm.Complete)
    (hbalanced : conn.Balanced) (hlt : conn.rm.lastSeq < 2 ^ 64) :
    conn.validateContent = .ok (if conn.rm.lastSeq = 0 then [.lastSeq 0 0] else []) := by
  have hsum : conn.totBytesSent =
      add64 (add64 conn.totNewDataSent conn.totRDBBytesSent) conn.totRetransBytesSent := hbalanced
  obtain ⟨⟨hwf, hsep⟩, hhole, hstart, htracks⟩ := hrm
  unfold validateContent
  have hsorted := conn.rm.ranges.sorted
  unfold RangeManager.Tracks at htracks
  have hlast := fun hne => RangeManager.endSeq_getLast hwf hsep hne
  cases hl : conn.rm.ranges.entries with
  | nil =>
      rw [hl] at hstart
      obtain ⟨en, hen, -⟩ := hstart
      cases hen
  | cons first rest =>
      rw [hl] at hwf hsep hhole hstart htracks hsorted hlast
      -- the range at 0 is the first one
      have hfirst : first.2.startSeq = 0 := by
        obtain ⟨en, hen, hzero⟩ := hstart
        rw [← (hwf first List.mem_cons_self).1]
        rcases List.mem_cons.mp hen with rfl | hen
        · exact hzero
        · have := (List.pairwise_cons.mp hsorted).1 en hen
          omega
      have hloop := RangeManager.validateLoop_eq_nil [] hwf hsep hhole none (by simp)
      dsimp only
      rw [hlast (List.cons_ne_nil _ _), if_neg (not_not_intro hfirst), if_neg (not_not_intro hsum),
        hloop]
      generalize maxEnd (first :: rest) = last at htracks
      by_cases hzero : conn.rm.lastSeq = 0
      · -- `lastSeq - 1` wraps
        have hnot : ¬(last ≤ conn.rm.lastSeq ∧ sub64 conn.rm.lastSeq 1 ≤ last) := by
          unfold sub64
          omega
        have hend : last = 0 := by omega
        rw [if_neg hnot, if_pos hzero, hzero, hend]
        rfl
      · have hinside : last ≤ conn.rm.lastSeq ∧ sub64 conn.rm.lastSeq 1 ≤ last := by
          unfold sub64
          omega
        rw [if_pos hinside, if_neg hzero]
        rfl

namespace RangeManager

/-! ## One packet -/

/-- The range that `validateContent` expects first. -/
def HasStart (l : List Entry) : Prop := ∃ en ∈ l, en.1 = 0

section Pass

variable {lastSeq : ℕ} {itype : InsertType} {seg : DataSeg} {level s e q : ℕ} {rdb : Bool}
  {pre post old new l l' : List Entry} {next : Option ℕ}

/-- No pass takes a range out of the map. -/
theorem Pass.key_kept (hpass : Pass lastSeq itype seg level s e pre post old new next) {en : Entry}
    (hen : en ∈ old) : ∃ en' ∈ new, en'.1 = en.1 := by
  cases hpass with
  | fresh | missing => cases hen
  | whole | front | span | reuse | back | middle | beyond =>
      rw [List.mem_singleton.mp hen]
      exact ⟨_, List.mem_cons_self, rfl⟩

theorem passKeeps_start :
    PassKeeps lastSeq itype seg e (fun l _ _ => HasStart l) HasStart := by
  intro s level pre old new post next _ hinv hpass
  have hstart : HasStart (pre ++ new ++ post) := by
    obtain ⟨en, hen, hzero⟩ := hinv
    simp only [List.mem_append] at hen
    rcases hen with (hen | hen) | hen
    · exact ⟨en, by simp [hen], hzero⟩
    · obtain ⟨en', hen', hkey⟩ := hpass.key_kept hen
      exact ⟨en', by simp [hen'], hkey.trans hzero⟩
    · exact ⟨en, by simp [hen], hzero⟩
  exact ⟨fun _ => hstart, fun _ _ => hstart⟩

theorem EmptyPass.hasStart (h : EmptyPass seg rdb q l l') (hstart : HasStart l) : HasStart l' := by
  obtain ⟨en, hen, hzero⟩ := hstart
  cases h with
  | fresh _ _ =>
      refine ⟨en, ?_, hzero⟩
      simp only [List.mem_append, List.mem_cons] at hen ⊢
      tauto
  | found r =>
      simp only [List.mem_append, List.mem_cons] at hen
      rcases hen with hen | rfl | hen
      · exact ⟨en, by simp [hen], hzero⟩
      · exact ⟨_, List.mem_append_right _ List.mem_cons_self, hzero⟩
      · exact ⟨en, by simp [hen], hzero⟩

theorem EmptyPass.ne_nil (h : EmptyPass seg rdb q l l') : l' ≠ [] := by
  cases h <;> simp

/-- A packet without payload makes no hole. -/
theorem EmptyPass.noHole (h : EmptyPass seg rdb q l l') (hhole : NoHole l) : NoHole l' := by
  have hbytes : ∀ en ∈ l', en.2.startSeq < en.2.endSeq →
      ∃ en' ∈ l, en'.2.startSeq = en.2.startSeq ∧ en'.2.endSeq = en.2.endSeq := by
    intro en hen hlt
    cases h with
    | fresh _ _ =>
        simp only [List.mem_append, List.mem_cons] at hen
        rcases hen with hen | rfl | hen
        · exact ⟨en, by simp [hen], rfl, rfl⟩
        · simp at hlt
        · exact ⟨en, by simp [hen], rfl, rfl⟩
    | @found pre post r =>
        simp only [List.mem_append, List.mem_cons] at hen
        rcases hen with hen | rfl | hen
        · exact ⟨en, by simp [hen], rfl, rfl⟩
        · exact ⟨(q, r), by simp, by simp⟩
        · exact ⟨en, by simp [hen], rfl, rfl⟩
  intro a ha b hb halt hblt x hlo hhi
  obtain ⟨a', ha', hastart, haend⟩ := hbytes a ha halt
  obtain ⟨b', hb', hbstart, hbend⟩ := hbytes b hb hblt
  rw [h.covered_iff]
  exact hhole a' ha' b' hb' (by omega) (by omega) x (by omega) (by omega)

end Pass

section Sent

variable {b₀ : ℕ} {rm rm' : RangeManager} {sd : SendData} {done : List SendData}

theorem GapFreeSent.syn (hok : GapFreeSent b₀ rm sd) : sd.data.syn = false := by
  by_cases hdata : sd.data.payloadSize = 0
  · exact (flags_of_noFlags (hok.pureAck hdata).1).1
  · exact (hok.data hdata).2.1

/-- Data of a gap-free trace opens no range across another. -/
theorem GapFreeSent.keepsApart (hok : GapFreeSent b₀ rm sd) (hinv : SentInv b₀ rm done)
    (hdata : sd.data.payloadSize ≠ 0) : KeepsApart rm sd := by
  obtain ⟨-, -, hlo, hhi, -⟩ := hok.data hdata
  rw [KeepsApart, if_neg hdata]
  constructor
  · intro en hen hlow hhigh
    have hkey := (hinv.wf en hen).1
    have := hinv.tiled.endSeq_le en hen (by omega)
    omega
  · intro h hle _ _ hheld en hen
    left
    by_contra hgt
    have hL := hinv.tiled.keys en hen
    obtain ⟨en', hen', hhold⟩ := (hinv.tiled.cover h).mpr ⟨by omega, by omega⟩
    exact hheld ⟨en', hen', .inr hhold⟩

/-- The ranges of a gap-free trace that begins with data. -/
theorem SentInv.hasStart (hinv : SentInv 0 rm done) (hne : rm.ranges.entries ≠ []) :
    HasStart rm.ranges.entries := by
  obtain ⟨first, hfirst⟩ := List.exists_mem_of_ne_nil _ hne
  by_cases hlast : rm.lastSeq = 0
  · exact ⟨first, hfirst, by have := hinv.tiled.keys first hfirst; omega⟩
  · obtain ⟨en, hen, hlo, -⟩ := (hinv.tiled.cover 0).mpr ⟨by omega, by omega⟩
    exact ⟨en, hen, by have := (hinv.wf en hen).1; omega⟩

/-- A packet of a gap-free trace moves `lastSeq` as `insertSentRange` says. -/
theorem GapFreeSent.lastSeq_eq (hok : GapFreeSent b₀ rm sd) (hinv : SentInv b₀ rm done)
    (h : rm.insertSentRange sd = .ok rm') : rm'.lastSeq = newLastSeq sd rm.lastSeq := by
  have hsize := hok.size
  by_cases hdata : sd.data.payloadSize = 0
  · have hend : sd.data.endSeq = sd.data.seq := by omega
    obtain ⟨rm₁, h₁, hlast, -⟩ := insertSentRange_empty rm hend
    obtain rfl := Except.ok.inj (h₁.symm.trans h)
    exact hlast
  · exact (insertSentRange_maxEnd_data ⟨hinv.wf, hinv.sep⟩ ⟨hsize, (hok.data hdata).1⟩ hdata
      (hok.keepsApart hinv hdata) h).2

/-- The first range is there after the first packet, and stays. -/
theorem insertSentRange_hasStart {done' : List SendData} (hok : GapFreeSent b₀ rm sd)
    (hinv : SentInv b₀ rm done) (hinv' : SentInv b₀ rm' done') (h : rm.insertSentRange sd = .ok rm')
    (hstart : b₀ = 0 ∨ HasStart rm.ranges.entries) : HasStart rm'.ranges.entries := by
  have hsize := hok.size
  by_cases hdata : sd.data.payloadSize = 0
  · have hend : sd.data.endSeq = sd.data.seq := by omega
    obtain ⟨rm₁, h₁, -, hpass⟩ := insertSentRange_empty rm hend
    obtain rfl := Except.ok.inj (h₁.symm.trans h)
    rcases hstart with rfl | hstart
    · exact hinv'.hasStart hpass.ne_nil
    · exact hpass.hasStart hstart
  · rcases hstart with rfl | hstart
    · have hlast := hok.lastSeq_eq hinv h
      unfold newLastSeq at hlast
      rw [if_neg hdata] at hlast
      have hpos : 0 < rm'.lastSeq := by
        have := (hok.data hdata).2.2.2.1
        split_ifs at hlast <;> omega
      obtain ⟨en, hen, -⟩ := (hinv'.tiled.cover 0).mpr ⟨le_rfl, hpos⟩
      exact hinv'.hasStart (List.ne_nil_of_mem hen)
    · have hapart : rm.Apart := ⟨hinv.wf, hinv.sep⟩
      have hready := hapart.ready ⟨hsize, (hok.data hdata).1⟩ hdata (hok.keepsApart hinv hdata)
      obtain ⟨rm₁, ret, h₁, rfl⟩ := insertSentRange_cases h
      exact (insertLoop_inserted (by simp) passKeeps_start hready hstart h₁).post

theorem SentInv.complete (hinv : SentInv b₀ rm done) (hb₀ : b₀ ≤ 1)
    (hstart : HasStart rm.ranges.entries) : rm.Complete where
  apart := ⟨hinv.wf, hinv.sep⟩
  noHole a ha b hb halt hblt x hlo hhi := by
    have hfrom := (hinv.tiled.cover a.2.startSeq).mp ⟨a, ha, le_rfl, halt⟩
    have hto := hinv.tiled.endSeq_le b hb hblt
    exact (hinv.tiled.cover x).mpr ⟨by omega, by omega⟩
  start := hstart
  tracks := by
    constructor
    · apply maxEnd_le
      intro en hen
      by_cases hbytes : en.2.startSeq < en.2.endSeq
      · exact hinv.tiled.endSeq_le en hen hbytes
      · have hkey := (hinv.wf en hen).1
        have hle := hinv.tiled.keys en hen
        omega
    · by_cases hdata : b₀ < rm.lastSeq
      · obtain ⟨en, hen, -, hhi⟩ := (hinv.tiled.cover (rm.lastSeq - 1)).mpr ⟨by omega, by omega⟩
        have := le_maxEnd hen
        omega
      · omega

/-- What follows the data: a FIN at its end, and pure ACKs there or behind the FIN. -/
structure ClosingSent (rm : RangeManager) (sd : SendData) : Prop where
  empty : sd.data.payloadSize = 0
  size : sd.data.endSeq = sd.data.seq
  flags : sd.data.syn = false ∧ sd.data.rst = false
  place : sd.data.seq = maxEnd rm.ranges.entries ∨ sd.data.noFlags ∧
    sd.data.seq = maxEnd rm.ranges.entries + 1 ∧
      (rm.ranges.find? (maxEnd rm.ranges.entries)).isSome

theorem insertSentRange_closing (hok : ClosingSent rm sd) (hlt : sd.data.seq < 2 ^ 64)
    (hinv : rm.Complete) : ∃ rm', rm.insertSentRange sd = .ok rm' ∧ rm'.Complete ∧
      rm'.lastSeq < 2 ^ 64 := by
  obtain ⟨⟨hwf, hsep⟩, hhole, hstart, -⟩ := hinv
  obtain ⟨rm', h', hlast, hpass⟩ := insertSentRange_empty rm hok.size
  have hlast' : rm'.lastSeq = sd.data.seq := by
    rw [hlast]
    unfold newLastSeq
    rw [if_pos hok.empty, hok.flags.2, if_neg Bool.false_ne_true, hok.flags.1, hok.size]
    rfl
  -- a range that is found starts below the end of the last one
  have hfound : ∀ en ∈ rm.ranges.entries, en.1 ≤ maxEnd rm.ranges.entries := by
    intro en hen
    have hle := le_maxEnd hen
    obtain ⟨hkey, hr⟩ := hwf en hen
    have := hr.le
    omega
  have hq : rm.emptySeq sd.data sd.data.seq = maxEnd rm.ranges.entries ∨
      ∃ en ∈ rm.ranges.entries, en.1 = rm.emptySeq sd.data sd.data.seq := by
    rcases emptySeq_cases rm sd.data sd.data.seq with hseq | hheld
    · rcases hok.place with hplace | ⟨hflags, hplace, hat⟩
      · exact .inl (hseq.trans hplace)
      · left
        have hprev : sub64 sd.data.seq 1 = maxEnd rm.ranges.entries := by
          unfold sub64
          omega
        unfold emptySeq
        rw [hprev, if_pos ⟨hflags, hat⟩]
    · exact .inr hheld
  have hqle : rm.emptySeq sd.data sd.data.seq ≤ maxEnd rm.ranges.entries := by
    rcases hq with hq | ⟨en, hen, hkey⟩
    · exact hq.le
    · rw [← hkey]
      exact hfound en hen
  refine ⟨rm', h', ⟨⟨hpass.wf hwf, hpass.separated hwf hsep ?_⟩, hpass.noHole hhole,
    hpass.hasStart hstart, ?_⟩, by omega⟩
  · rcases hq with hq | hq
    · right
      intro en hen _
      rw [hq]
      exact le_maxEnd hen
    · exact .inl hq
  · unfold Tracks
    rw [hpass.maxEnd_eq hwf, hlast']
    have hplace := hok.place
    omega

end Sent

end RangeManager

namespace Connection

open RangeManager

/-! ## A session -/

/-- `d` is `sd` but for the marks of `registerSent`. -/
structure SameSegment (sd d : SendData) : Prop where
  seq : d.data.seq = sd.data.seq
  endSeq : d.data.endSeq = sd.data.endSeq
  payloadSize : d.data.payloadSize = sd.data.payloadSize
  flags : d.data.flags = sd.data.flags

theorem classify_sameSegment (conn : Connection) (sd : SendData) :
    (conn.classify sd).1.closed = conn.closed ∧ SameSegment sd (conn.classify sd).2 := by
  unfold classify
  by_cases hzero : sd.data.payloadSize = 0
  · rw [if_pos hzero]
    exact ⟨rfl, rfl, rfl, rfl, rfl⟩
  rw [if_neg hzero]
  by_cases hnew : conn.lastLargestEndSeq < sd.data.endSeq
  · rw [if_pos hnew]
    have hsame : (conn.registerNewData sd).1.closed = conn.closed ∧
        SameSegment sd (conn.registerNewData sd).2 := by
      cases conn
      unfold registerNewData
      dsimp only
      split <;> exact ⟨rfl, rfl, rfl, rfl, rfl⟩
    exact hsame
  · rw [if_neg hnew]
    exact ⟨rfl, rfl, rfl, rfl, rfl⟩

/-- On an open connection, `registerSent` lets a packet that is no unexpected SYN through. -/
theorem registerSent_open {conn : Connection} {sd : SendData} (hopen : conn.closed = false)
    (hplain : sd.data.syn = true → sd.data.endSeq ≤ conn.lastLargestEndSeq) :
    ∃ c d, conn.registerSent sd = (c, d, true) ∧ c.rm = conn.rm ∧ c.closed = false ∧
      SameSegment sd d := by
  rcases registerSent_cases conn sd with ⟨-, hclosed, -⟩ | ⟨c, d, hchecked, hout⟩
  · exact absurd (hopen.symm.trans hclosed) Bool.false_ne_true
  have hsyn : ¬((conn.countPacket sd).Unexpected sd.data ∧ sd.data.syn = true) := by
    rintro ⟨⟨hlt, -⟩, hsyn⟩
    exact absurd (hplain hsyn) (not_le.mpr hlt)
  cases hchecked with
  | closes h => exact absurd ⟨h.1, h.2.2.1⟩ hsyn
  | restarts h => exact absurd ⟨h.1, h.2.2.1⟩ hsyn
  | plain _ =>
      obtain ⟨hclosed, hsame⟩ := classify_sameSegment (conn.countPacket sd) sd
      exact ⟨_, _, hout, (classify_reference _ _).1, hclosed.trans hopen, hsame⟩

/-- Whatever the ranges do with the packet, `registerSent` has done its part. -/
theorem processSent_open {conn : Connection} {sd : SendData} (hopen : conn.closed = false)
    (hplain : sd.data.syn = true → sd.data.endSeq ≤ conn.lastLargestEndSeq)
    (hinv : conn.Accounted) (hsized : Sized sd.data) :
    ∃ d, SameSegment sd d ∧ ∀ rm', conn.rm.insertSentRange d = .ok rm' →
      ∃ conn', conn.processSent sd = .ok conn' ∧ conn'.rm = rm' ∧ conn'.closed = false ∧
        conn'.Accounted := by
  obtain ⟨c, d, hout, hrm, hclosed, hsame⟩ := registerSent_open hopen hplain
  have haccounted := registerSent_accounted hinv hsized
  rw [hout] at haccounted
  refine ⟨d, hsame, fun rm' h => ⟨{ c with rm := rm' }, ?_, rfl, hclosed, ?_⟩⟩
  · unfold processSent registerRange
    rw [hout]
    dsimp only
    rw [hrm, h]
    rfl
  · exact haccounted.of_eq rfl rfl rfl rfl rfl rfl

/-- A connection on which a gap-free stream from `b₀` on is being sent. -/
structure Streaming (b₀ : ℕ) (conn : Connection) : Prop where
  opened : conn.closed = false
  accounted : conn.Accounted
  sent : ∃ done, SentInv b₀ conn.rm done
  lt : conn.rm.lastSeq < 2 ^ 64

/-- The next packet of the stream. -/
def SendsGapFree (b₀ : ℕ) (conn : Connection) (sd : SendData) : Prop :=
  Sized sd.data ∧ GapFreeSent b₀ conn.rm sd

/-- A packet after the stream. -/
def SendsClosing (conn : Connection) (sd : SendData) : Prop :=
  Sized sd.data ∧ conn.rm.ClosingSent sd

section Steps

variable {b₀ : ℕ} {conn : Connection} {sd d : SendData}

theorem SameSegment.gapFree {rm : RangeManager} (h : SameSegment sd d)
    (hok : GapFreeSent b₀ rm sd) : GapFreeSent b₀ rm d := by
  have hflags : d.data.syn = sd.data.syn ∧ d.data.noFlags = sd.data.noFlags := by
    unfold DataSeg.noFlags DataSeg.syn DataSeg.fin DataSeg.rst
    rw [h.flags]
    exact ⟨rfl, rfl⟩
  obtain ⟨hsize, hdata, hpure⟩ := hok
  constructor
  · rw [h.endSeq, h.seq, h.payloadSize]
    exact hsize
  · rw [h.payloadSize, hflags.1, h.seq, h.endSeq]
    exact hdata
  · rw [h.payloadSize, hflags.2, h.seq]
    exact hpure

theorem SameSegment.closing {rm : RangeManager} (h : SameSegment sd d) (hok : ClosingSent rm sd) :
    ClosingSent rm d := by
  have hflags : d.data.syn = sd.data.syn ∧ d.data.rst = sd.data.rst ∧
      d.data.noFlags = sd.data.noFlags := by
    unfold DataSeg.noFlags DataSeg.syn DataSeg.fin DataSeg.rst
    rw [h.flags]
    exact ⟨rfl, rfl, rfl⟩
  obtain ⟨hempty, hsize, hnone, hplace⟩ := hok
  constructor
  · rw [h.payloadSize]
    exact hempty
  · rw [h.endSeq, h.seq]
    exact hsize
  · rw [hflags.1, hflags.2.1]
    exact hnone
  · rw [h.seq, hflags.2.2]
    exact hplace

theorem processSent_streaming (hinv : Streaming b₀ conn)
    (hstart : b₀ = 0 ∨ HasStart conn.rm.ranges.entries) (hok : SendsGapFree b₀ conn sd) :
    ∃ conn', conn.processSent sd = .ok conn' ∧ Streaming b₀ conn' ∧
      HasStart conn'.rm.ranges.entries := by
  obtain ⟨hsized, hgap⟩ := hok
  obtain ⟨hopen, haccounted, ⟨done, hsent⟩, hlt⟩ := hinv
  obtain ⟨d, hsame, hinsert⟩ := processSent_open hopen
    (fun hsyn => absurd (hsyn.symm.trans (hgap.syn)) nofun) haccounted hsized
  have hgap' := hsame.gapFree hgap
  have hrm : ∃ rm', conn.rm.insertSentRange d = .ok rm' ∧ SentInv b₀ rm' (done ++ [d]) := by
    by_cases hempty : d.data.payloadSize = 0
    · exact insertSentRange_pureAck hsent hgap' hempty
    · exact insertSentRange_data hsent hgap' hempty
  obtain ⟨rm', h', hsent'⟩ := hrm
  obtain ⟨conn', hconn', rfl, hopen', haccounted'⟩ := hinsert rm' h'
  refine ⟨conn', hconn', ⟨hopen', haccounted', ⟨_, hsent'⟩, ?_⟩,
    insertSentRange_hasStart hgap' hsent hsent' h' hstart⟩
  have hlast := hgap'.lastSeq_eq hsent h'
  have hend : d.data.seq + d.data.payloadSize < 2 ^ 64 := by
    rw [← hgap'.size, hsame.endSeq]
    exact hsized.lt
  have hsize := hgap'.size
  have hsyn := hgap'.syn
  rw [hlast]
  unfold newLastSeq
  rw [hsyn]
  split_ifs
  · exact hlt
  · show d.data.endSeq + 0 < 2 ^ 64
    omega
  all_goals omega

theorem processSent_closing (hopen : conn.closed = false) (haccounted : conn.Accounted)
    (hcomplete : conn.rm.Complete) (hok : SendsClosing conn sd) :
    ∃ conn', conn.processSent sd = .ok conn' ∧ conn'.closed = false ∧ conn'.Accounted ∧
      conn'.rm.Complete ∧ conn'.rm.lastSeq < 2 ^ 64 := by
  obtain ⟨hsized, hclosing⟩ := hok
  obtain ⟨d, hsame, hinsert⟩ := processSent_open hopen
    (fun hsyn => absurd (hsyn.symm.trans hclosing.flags.1) nofun) haccounted hsized
  have hclosing' := hsame.closing hclosing
  have hlt : d.data.seq < 2 ^ 64 := by
    rw [← hclosing'.size, hsame.endSeq]
    exact hsized.lt
  obtain ⟨rm', h', hcomplete', hlast⟩ := insertSentRange_closing hclosing' hlt hcomplete
  obtain ⟨conn', hconn', rfl, hopen', haccounted'⟩ := hinsert rm' h'
  exact ⟨conn', hconn', hopen', haccounted', hcomplete', hlast⟩

end Steps

theorem streaming_new (seq : ℕ) : Streaming 0 (new seq) where
  opened := rfl
  accounted := accounted_new seq
  sent := ⟨[], sentInv_new seq⟩
  lt := by
    show 0 < 2 ^ 64
    decide

/-- The SYN takes position 0, and is the first range from then on. -/
theorem processSent_openingSyn (seq : ℕ) {sd : SendData} (hsyn : OpeningSyn sd) :
    ∃ conn, (new seq).processSent sd = .ok conn ∧ Streaming 1 conn ∧
      HasStart conn.rm.ranges.entries := by
  have hsized : Sized sd.data := ⟨by rw [hsyn.endSeq, hsyn.seq, hsyn.payload], by
    rw [hsyn.endSeq]
    decide⟩
  obtain ⟨d, hsame, hinsert⟩ := processSent_open (show (new seq).closed = false from rfl)
    (fun _ => by rw [hsyn.endSeq]; exact Nat.zero_le _) (accounted_new seq) hsized
  have hd : OpeningSyn d := by
    refine ⟨hsame.seq.trans hsyn.seq, hsame.endSeq.trans hsyn.endSeq,
      hsame.payloadSize.trans hsyn.payload, ?_⟩
    unfold DataSeg.syn
    rw [hsame.flags]
    exact hsyn.syn
  obtain ⟨rm, hrm, hsent⟩ := insertSentRange_openingSyn seq hd
  have hend : d.data.endSeq = d.data.seq := hd.endSeq.trans hd.seq.symm
  obtain ⟨rm₁, h₁, hlast, hpass⟩ := insertSentRange_empty (RangeManager.new seq) hend
  obtain rfl := Except.ok.inj (h₁.symm.trans hrm)
  obtain ⟨conn, hconn, rfl, hopen, haccounted⟩ := hinsert _ hrm
  have hq : (RangeManager.new seq).emptySeq d.data d.data.seq = 0 := by
    unfold emptySeq
    rw [if_neg (by simp [RangeManager.new, OrdMap.find?]), hd.seq]
  have hstart : HasStart conn.rm.ranges.entries := by
    rw [hq] at hpass
    rw [hpass.of_nil]
    exact ⟨_, List.mem_singleton_self _, rfl⟩
  refine ⟨conn, hconn, ⟨hopen, haccounted, ⟨_, hsent⟩, ?_⟩, hstart⟩
  rw [hlast]
  unfold newLastSeq
  rw [if_pos hd.payload, hd.endSeq, hd.syn]
  split_ifs
  · show 0 < 2 ^ 64
    decide
  · decide

/-- After a session that was captured without a hole, all that `validateContent` can warn about is
that no more than pure ACKs were sent. -/
theorem validateContent_session {seq : ℕ} {syn : Option SendData} {sds closing : List SendData}
    (hsyn : ∀ sd ∈ syn, OpeningSyn sd) (hne : syn.toList ++ sds ≠ [])
    (hsteps : ∀ conn₀, Run.run processSent (new seq) syn.toList = .ok conn₀ →
      Run.Steps processSent (SendsGapFree (firstByte syn)) conn₀ sds)
    (hclosing : ∀ conn₁, Run.run processSent (new seq) (syn.toList ++ sds) = .ok conn₁ →
      Run.Steps processSent SendsClosing conn₁ closing) :
    ∃ conn, Run.run processSent (new seq) (syn.toList ++ sds ++ closing) = .ok conn ∧
      conn.validateContent = .ok (if conn.rm.lastSeq = 0 then [.lastSeq 0 0] else []) := by
  have hopening : ∃ conn₀, Run.run processSent (new seq) syn.toList = .ok conn₀ ∧
      Streaming (firstByte syn) conn₀ ∧
      (firstByte syn = 0 ∧ syn.toList = [] ∨ HasStart conn₀.rm.ranges.entries) := by
    cases syn with
    | none => exact ⟨_, rfl, streaming_new seq, .inl ⟨rfl, rfl⟩⟩
    | some sd =>
        obtain ⟨conn₀, h₀, hinv, hstart⟩ := processSent_openingSyn seq (hsyn sd rfl)
        exact ⟨conn₀, Run.run_cons_ok h₀, hinv, .inr hstart⟩
  obtain ⟨conn₀, h₀, hinv₀, hstart₀⟩ := hopening
  obtain ⟨conn₁, h₁, hinv₁, hstart₁⟩ := Run.exists_ok
    (I := fun conn done => Streaming (firstByte syn) conn ∧
      (firstByte syn = 0 ∧ done = [] ∨ HasStart conn.rm.ranges.entries))
    (fun conn sd done hinv hok => by
      obtain ⟨conn', hconn', hinv', hstart'⟩ :=
        processSent_streaming hinv.1 (hinv.2.imp_left And.left) hok
      exact ⟨conn', hconn', hinv', .inr hstart'⟩) ⟨hinv₀, hstart₀⟩ (hsteps conn₀ h₀)
  have hrun₁ : Run.run processSent (new seq) (syn.toList ++ sds) = .ok conn₁ :=
    (Run.run_append_of_ok h₀).trans h₁
  have hfirst : firstByte syn ≤ 1 := by
    unfold firstByte
    split <;> omega
  obtain ⟨done, hsent⟩ := hinv₁.sent
  have hcomplete := hsent.complete hfirst (hstart₁.resolve_left fun h => hne h.2)
  obtain ⟨conn, h₂, -, haccounted, hcomplete', hlt⟩ := Run.exists_ok (d := [])
    (I := fun conn _ => conn.closed = false ∧ conn.Accounted ∧ conn.rm.Complete ∧
      conn.rm.lastSeq < 2 ^ 64)
    (fun conn sd _ hinv hok => processSent_closing hinv.1 hinv.2.1 hinv.2.2.1 hok)
    ⟨hinv₁.opened, hinv₁.accounted, hcomplete, hinv₁.lt⟩ (hclosing conn₁ hrun₁)
  exact ⟨conn, (Run.run_append_of_ok hrun₁).trans h₂,
    validateContent_of_complete hcomplete' haccounted.balanced hlt⟩

instance (b₀ : ℕ) (conn : Connection) (sd : SendData) : Decidable (SendsGapFree b₀ conn sd) :=
  decidable_of_iff ((sd.data.endSeq = sd.data.seq + sd.data.payloadSize ∧
    sd.data.endSeq < 2 ^ 64) ∧ GapFreeSent b₀ conn.rm sd)
    ⟨fun h => ⟨⟨h.1.1, h.1.2⟩, h.2⟩, fun h => ⟨⟨h.1.endSeq, h.1.lt⟩, h.2⟩⟩

instance (conn : Connection) (sd : SendData) : Decidable (SendsClosing conn sd) :=
  decidable_of_iff ((sd.data.endSeq = sd.data.seq + sd.data.payloadSize ∧
    sd.data.endSeq < 2 ^ 64) ∧ sd.data.payloadSize = 0 ∧ sd.data.endSeq = sd.data.seq ∧
      (sd.data.syn = false ∧ sd.data.rst = false) ∧
      (sd.data.seq = maxEnd conn.rm.ranges.entries ∨ sd.data.noFlags ∧
        sd.data.seq = maxEnd conn.rm.ranges.entries + 1 ∧
          (conn.rm.ranges.find? (maxEnd conn.rm.ranges.entries)).isSome))
    ⟨fun h => ⟨⟨h.1.1, h.1.2⟩, h.2.1, h.2.2.1, h.2.2.2.1, h.2.2.2.2⟩,
      fun h => ⟨⟨h.1.endSeq, h.1.lt⟩, h.2.empty, h.2.size, h.2.flags, h.2.place⟩⟩

/-- A FIN behind the stream of `smallTrace`, and the ACK of the other side's FIN. -/
def smallClose : List SendData :=
  [{ data := { seq := 9, endSeq := 9, flags := thFin } }, { data := { seq := 10, endSeq := 10 } }]

theorem validateContent_session_small :
    ∃ conn, Run.run processSent (new 7) (smallSyn :: (smallTrace ++ smallClose)) = .ok conn ∧
      conn.validateContent = .ok (if conn.rm.lastSeq = 0 then [.lastSeq 0 0] else []) := by
  have hsyn : ∀ sd ∈ some smallSyn, OpeningSyn sd := by
    rintro sd ⟨⟩
    exact ⟨rfl, rfl, rfl, by decide⟩
  have hsteps : ∀ conn₀, Run.run processSent (new 7) [smallSyn] = .ok conn₀ →
      Run.Steps processSent (SendsGapFree 1) conn₀ smallTrace := fun _ h₀ =>
    Run.of_all_toOption (p := fun conn₀ => Run.Steps processSent (SendsGapFree 1) conn₀ smallTrace)
      (by decide) h₀
  have hclosing : ∀ conn₁, Run.run processSent (new 7) (smallSyn :: smallTrace) = .ok conn₁ →
      Run.Steps processSent SendsClosing conn₁ smallClose := fun _ h₁ =>
    Run.of_all_toOption (p := fun conn₁ => Run.Steps processSent SendsClosing conn₁ smallClose)
      (by decide) h₁
  exact validateContent_session hsyn (by simp) hsteps hclosing

end Connection

end AnalyseTCP
