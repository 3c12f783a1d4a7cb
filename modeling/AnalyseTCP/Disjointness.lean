import AnalyseTCP.InsertLoop
import Mathlib.Data.List.Chain

/-!
# Ranges never overlap

`insertSentRange` keeps the ranges of the map apart as long as no packet opens a new range across an
existing one.  It does open one across another: a range made behind a gap does not move `lastSeq`,
so data that starts inside that range is not recognised as old, and a new range is never clipped
against the next one.
-/

namespace AnalyseTCP

namespace RangeManager

/-- Consecutive ranges do not overlap. -/
def Disjoint (rm : RangeManager) : Prop :=
  rm.ranges.entries.IsChain fun a b => a.2.endSeq ≤ b.2.startSeq

instance (rm : RangeManager) : Decidable rm.Disjoint :=
  inferInstanceAs (Decidable (List.IsChain _ _))

/-- A packet as the capture hands it over. -/
structure Sized (sd : SendData) : Prop where
  size : sd.data.endSeq = sd.data.seq + sd.data.payloadSize
  bound : sd.data.payloadSize < 2 ^ 16 - 1

instance (sd : SendData) : Decidable (Sized sd) :=
  decidable_of_iff (sd.data.endSeq = sd.data.seq + sd.data.payloadSize ∧
    sd.data.payloadSize < 2 ^ 16 - 1) ⟨fun h => ⟨h.1, h.2⟩, fun h => ⟨h.size, h.bound⟩⟩

/-- The packet opens no range across an existing one. -/
def KeepsApart (rm : RangeManager) (sd : SendData) : Prop :=
  if sd.data.payloadSize = 0 then
    -- a pure ACK may be registered on the range that starts one before it
    (sd.data.noFlags ∧ (rm.ranges.find? (sub64 sd.data.seq 1)).isSome) ∨
      ∀ en ∈ rm.ranges.entries, en.1 < sd.data.seq → en.2.endSeq ≤ sd.data.seq
  else
    (∀ en ∈ rm.ranges.entries, en.1 < sd.data.seq → sd.data.seq < en.2.endSeq →
      sd.data.seq < rm.lastSeq) ∧
    NoSkip rm.ranges.entries sd.data.seq sd.data.endSeq

instance (l : List Entry) (s e : ℕ) : Decidable (NoSkip l s e) :=
  decidable_of_iff (∀ h ∈ List.range' s (e - s), (h = s ∨ ∃ en ∈ l, en.2.endSeq = h) →
    ¬Held l h → ∀ en ∈ l, en.1 ≤ h ∨ e ≤ en.1) <| by
  unfold NoSkip
  constructor
  · intro hall h hle hlt
    exact hall h (by rw [List.mem_range'_1]; omega)
  · intro hall h hmem
    rw [List.mem_range'_1] at hmem
    exact hall h (by omega) (by omega)

instance (rm : RangeManager) (sd : SendData) : Decidable (KeepsApart rm sd) := by
  unfold KeepsApart
  infer_instance

/-- The invariant: every entry is well formed and reaches into no later one. -/
def Apart (rm : RangeManager) : Prop := WfEntries rm.ranges.entries ∧ Separated rm.ranges.entries

instance (rm : RangeManager) : Decidable rm.Apart :=
  decidable_of_iff ((∀ en ∈ rm.ranges.entries, en.1 = en.2.startSeq ∧
      en.2.startSeq + en.2.byteCount = en.2.endSeq ∧ en.2.byteCount < 2 ^ 16) ∧
    rm.ranges.entries.Pairwise fun a b => a.2.endSeq ≤ b.2.startSeq) <|
    and_congr_left' <| forall₂_congr fun _ _ => and_congr_right' ByteRange.wf_iff.symm

/-- A pass leaves the ranges apart unless it makes a new range. -/
theorem Pass.apart {rm₁ : RangeManager} {itype : InsertType} {seg : DataSeg}
    {lastSeq level s e : ℕ} {pre post old new : List Entry} {next : Option ℕ}
    (hpass : Pass lastSeq itype seg level s e pre post old new next)
    (hwf : WfEntries (pre ++ old ++ post)) (hsep : Separated (pre ++ old ++ post)) (hlt : s < e)
    (hne : itype = .sent → old ≠ []) (hentries : rm₁.ranges.entries = pre ++ new ++ post) :
    rm₁.Apart := by
  constructor
  · rw [hentries]
    exact hpass.wf hlt hwf
  · rw [hentries]
    exact hpass.separated_of_room hwf hsep hlt fun hsent hnil => absurd hnil (hne hsent)

theorem Apart.disjoint {rm : RangeManager} (h : rm.Apart) : rm.Disjoint := List.Pairwise.isChain h.2

/-- The later of two ranges starts where the earlier one ends, or after it. -/
theorem Apart.le_of_lt {rm : RangeManager} (h : rm.Apart) {a b : Entry} (ha : a ∈ rm.ranges.entries)
    (hb : b ∈ rm.ranges.entries) (hlt : a.1 < b.1) : a.2.endSeq ≤ b.2.startSeq := by
  obtain ⟨pre, post, hcut⟩ := List.append_of_mem hb
  have hsep := h.2
  rw [hcut] at hsep ha
  rcases List.mem_append.mp ha with ha | ha
  · exact (separated_append.mp hsep).2.2 a ha b List.mem_cons_self
  · rcases List.mem_cons.mp ha with rfl | ha
    · exact absurd hlt (lt_irrefl _)
    · exact absurd (OrdMap.lt_of_mem_post hcut ha) hlt.not_gt

/-- In a separated map a byte is held by one range. -/
theorem eq_of_holds {l : List Entry} (hsep : Separated l) {en en' : Entry} (hen : en ∈ l)
    (hen' : en' ∈ l) {b : ℕ} (hb : en.2.Holds b) (hb' : en'.2.Holds b) : en = en' := by
  by_contra hne
  have hpair : l.Pairwise fun x y => ¬(x.2.Holds b ∧ y.2.Holds b) := by
    refine hsep.imp fun {x y} hxy hboth => ?_
    have := hboth.1.2
    have := hboth.2.1
    omega
  have : Std.Symm fun x y : Entry => ¬(x.2.Holds b ∧ y.2.Holds b) :=
    ⟨fun x y h h' => h ⟨h'.2, h'.1⟩⟩
  exact hpair.forall hen hen' hne ⟨hb, hb'⟩

/-! ## Packets without payload -/

section Empty

variable {seg : DataSeg} {rdb : Bool} {q : ℕ} {l l' : List Entry}

theorem EmptyPass.wf (h : EmptyPass seg rdb q l l') (hwf : WfEntries l) : WfEntries l' := by
  cases h with
  | fresh hpre hpost =>
      rw [wfEntries_append] at hwf
      rw [wfEntries_append, wfEntries_cons]
      exact ⟨hwf.1, ⟨rfl, by simp [ByteRange.wf_iff]⟩, hwf.2⟩
  | found r =>
      rw [wfEntries_append, wfEntries_cons] at hwf ⊢
      simpa [ByteRange.wf_iff] using hwf

theorem EmptyPass.separated (h : EmptyPass seg rdb q l l') (hwf : WfEntries l)
    (hsep : Separated l)
    (hclear : (∃ en ∈ l, en.1 = q) ∨ ∀ en ∈ l, en.1 < q → en.2.endSeq ≤ q) : Separated l' := by
  cases h with
  | @fresh pre post hpre hpost =>
      have hclear' : ∀ en ∈ pre ++ post, en.1 < q → en.2.endSeq ≤ q := by
        refine hclear.resolve_left fun ⟨en, hen, hkey⟩ => ?_
        rcases List.mem_append.mp hen with hen | hen
        · exact (hpre en hen).ne hkey
        · exact (hpost en hen).ne' hkey
      have hnew : Separated (pre ++ [(q, emptyRange seg rdb q)] ++ post) :=
        separated_between q q hsep (List.pairwise_singleton _ _)
        (fun en hen => hclear' en (List.mem_append_left _ hen) (hpre en hen))
        (fun en hen => (hwf en (List.mem_append_right _ hen)).1 ▸ (hpost en hen).le) (by simp)
      simpa using hnew
  | @found pre post r =>
      have hsep' : Separated (pre ++ [(q, r)] ++ post) := by simpa using hsep
      obtain ⟨hsep', hpre, hpost⟩ := separated_around hsep'
      have hnew : Separated (pre ++ [(q, recordEmpty seg .sent 0 rdb r)] ++ post) :=
        separated_between _ _ hsep' (List.pairwise_singleton _ _) hpre hpost (by simp)
      simpa using hnew

end Empty

/-! ## Runs -/

theorem insertSentRange_apart_empty {rm rm' : RangeManager} {sd : SendData} (hinv : rm.Apart)
    (hsd : Sized sd) (hsize : sd.data.payloadSize = 0) (hok : KeepsApart rm sd)
    (h : rm.insertSentRange sd = .ok rm') : rm'.Apart := by
  rw [KeepsApart, if_pos hsize] at hok
  have hend : sd.data.endSeq = sd.data.seq := by simpa [hsize] using hsd.size
  obtain ⟨rm₁, h₁, -, hpass⟩ := insertSentRange_empty rm hend
  obtain rfl := Except.ok.inj (h₁.symm.trans h)
  refine ⟨hpass.wf hinv.1, hpass.separated hinv.1 hinv.2 ?_⟩
  by_cases hprev : sd.data.noFlags ∧ (rm.ranges.find? (sub64 sd.data.seq 1)).isSome
  · left
    obtain ⟨r, hr⟩ := Option.isSome_iff_exists.mp hprev.2
    have hq : rm.emptySeq sd.data sd.data.seq = sub64 sd.data.seq 1 := if_pos hprev
    exact ⟨_, OrdMap.find?_eq_some_iff.mp hr, hq.symm⟩
  · right
    have hq : rm.emptySeq sd.data sd.data.seq = sd.data.seq := if_neg hprev
    rw [hq]
    exact hok.resolve_left hprev

/-- Data that opens no range across an existing one can be inserted. -/
theorem Apart.ready {rm : RangeManager} {sd : SendData} (hinv : rm.Apart) (hsd : Sized sd)
    (hsize : sd.data.payloadSize ≠ 0) (hok : KeepsApart rm sd) :
    Ready rm.lastSeq .sent sd.data.endSeq rm.ranges.entries sd.data.seq := by
  rw [KeepsApart, if_neg hsize] at hok
  have hend := hsd.size
  have hbound := hsd.bound
  refine ⟨rm.ranges.sorted, hinv.1, hinv.2, by omega, fun _ => by omega, hok.1, hok.2, ?_⟩
  intro hrecv
  cases hrecv

theorem insertSentRange_apart_data {rm rm' : RangeManager} {sd : SendData} (hinv : rm.Apart)
    (hsd : Sized sd) (hsize : sd.data.payloadSize ≠ 0) (hok : KeepsApart rm sd)
    (h : rm.insertSentRange sd = .ok rm') : rm'.Apart := by
  have hready := hinv.ready hsd hsize hok
  -- the geometry is all there is to keep
  have hkeeps : PassKeeps rm.lastSeq .sent sd.data sd.data.endSeq (fun _ _ _ => True)
      (fun _ => True) := fun _ _ _ _ _ _ _ _ _ _ => ⟨fun _ => trivial, fun _ _ => trivial⟩
  obtain ⟨rm₁, ret, h₁, rfl⟩ := insertSentRange_cases h
  have hins := insertLoop_inserted (by simp) hkeeps hready trivial h₁
  exact ⟨hins.wf, hins.sep⟩

theorem insertSentRange_apart {rm rm' : RangeManager} {sd : SendData} (hinv : rm.Apart)
    (hsd : Sized sd) (hok : KeepsApart rm sd) (h : rm.insertSentRange sd = .ok rm') :
    rm'.Apart := by
  by_cases hsize : sd.data.payloadSize = 0
  · exact insertSentRange_apart_empty hinv hsd hsize hok h
  · exact insertSentRange_apart_data hinv hsd hsize hok h

/-- In every run whose packets open no range across an existing one, no byte is held twice. -/
theorem insertSentRange_run_disjoint {firstSeq : ℕ} {sds : List SendData} {rm : RangeManager}
    (hsized : ∀ sd ∈ sds, Sized sd)
    (hsteps : Run.Steps insertSentRange KeepsApart (new firstSeq) sds)
    (hrun : Run.run insertSentRange (new firstSeq) sds = .ok rm) :
    rm.Disjoint ∧ ∀ en ∈ rm.ranges.entries, ∀ en' ∈ rm.ranges.entries,
      ∀ b, en.2.Holds b → en'.2.Holds b → en = en' := by
  have hinit : (new firstSeq).Apart := ⟨wfEntries_nil, separated_nil⟩
  have hapart : rm.Apart :=
    Run.invariant (I := fun rm _ => rm.Apart) (d := [])
      (fun _ _ _ _ hinv hok hstep => insertSentRange_apart hinv hok.2 hok.1 hstep) hinit
      (hsteps.and_forall hsized) hrun
  exact ⟨hapart.disjoint, fun en hen en' hen' b => eq_of_holds hapart.2 hen hen'⟩

def smallSyn : SendData := { data := { flags := thSyn } }

/-- A segment, a pure ACK, and a segment that repeats half of the first. -/
def smallTrace : List SendData :=
  [{ data := { seq := 1, endSeq := 5, payloadSize := 4 } },
    { data := { seq := 5, endSeq := 5 } },
    { data := { seq := 3, endSeq := 9, payloadSize := 6 } }]

theorem insertSentRange_run_disjoint_small :
    (Run.run insertSentRange (new 0) (smallSyn :: smallTrace)).toOption.isSome = true ∧
      ∀ rm, Run.run insertSentRange (new 0) (smallSyn :: smallTrace) = .ok rm → rm.Disjoint :=
  ⟨by decide, fun _ hrun => (insertSentRange_run_disjoint (by decide) (by decide) hrun).1⟩

/-- After the SYN, a segment behind a gap, then one that starts before and ends inside it. -/
def gapTrace : List SendData :=
  [smallSyn,
    { data := { seq := 100, endSeq := 200, payloadSize := 100 } },
    { data := { seq := 50, endSeq := 150, payloadSize := 100 } }]

theorem insertSentRange_overlaps_after_gap :
    ¬∀ firstSeq sds rm, (∀ sd ∈ sds, Sized sd) →
      Run.run insertSentRange (new firstSeq) sds = .ok rm → rm.Disjoint := by
  intro h
  have hrun : (Run.run insertSentRange (new 0) gapTrace).toOption.any
      (fun rm => !decide rm.Disjoint) = true := by decide
  cases hrm : Run.run insertSentRange (new 0) gapTrace with
  | error e => rw [hrm] at hrun; cases hrun
  | ok rm =>
      rw [hrm] at hrun
      have hdis := h 0 gapTrace rm (by decide) hrm
      simp [Except.toOption, hdis] at hrun

end RangeManager

end AnalyseTCP
