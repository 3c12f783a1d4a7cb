import AnalyseTCP.InsertCalls

/-!
# The recursion of `insertByteRange` advances

On any map of well-formed ranges.  A call changes nothing from the start of the call it makes on, so
the calls of one insertion can be followed on the map it began with.  Sent data extends a range
without bytes at its start; received data and sojourn entries call again with the `start_seq` they
came with.
-/

namespace AnalyseTCP

namespace RangeManager

/-! ## The calls of one insertion -/

/-- Call number `level`, with the data from `s` on, calls again with the data from the last
argument on, as the map before the insertion tells. -/
inductive GoesTo (rm : RangeManager) (itype : InsertType) (seg : DataSeg) (level s e : ℕ) : ℕ → Prop
  | found (r : ByteRange) (hmem : (s, r) ∈ rm.ranges.entries)
      (hpast : CallsPast rm itype seg level s e r) : GoesTo rm itype seg level s e r.endSeq
  | inside (key : ℕ) (r : ByteRange) (hlast : s < rm.lastSeq) (hover : Straddles rm s key r)
      (hend : r.endSeq < e) : GoesTo rm itype seg level s e r.endSeq

/-- Data from `s` up to `e` comes to `p` with call number `level`. -/
inductive ComesTo (rm : RangeManager) (itype : InsertType) (seg : DataSeg) (s e : ℕ) : ℕ → ℕ → Prop
  | start : ComesTo rm itype seg s e 0 s
  | next {level p p' : ℕ} (hcomes : ComesTo rm itype seg s e level p)
      (hgoes : GoesTo rm itype seg level p e p') : ComesTo rm itype seg s e (level + 1) p'

/-- Received data or a sojourn entry comes to a range without bytes and reaches past it. -/
def Stalls (rm : RangeManager) (itype : InsertType) (seg : DataSeg) (s e : ℕ) : Prop :=
  itype ≠ .sent ∧ ∃ level p, ComesTo rm itype seg s e level p ∧ GoesTo rm itype seg level p e p

/-- Data from `s` up to `e` meets the range; one without bytes it meets where the range lies. -/
def Overlaps (s e : ℕ) (en : Entry) : Prop :=
  en.1 < e ∧ (s < en.2.endSeq ∨ s ≤ en.1)

instance (s e : ℕ) (en : Entry) : Decidable (Overlaps s e en) :=
  inferInstanceAs (Decidable (_ ∧ _))

/-- Every recursive call of `insertByteRange` for the data from `s` up to `e` starts later, and
below `e`; the calls come to an end, and the exception about their number is for data that overlaps
more than 1500 ranges. -/
structure Advances (rm : RangeManager) (itype : InsertType) (seg : DataSeg) (s e : ℕ) : Prop where
  calls : ∀ rm₁ s₁ level rm₂ s₂, Visits e itype seg rm s 0 rm₁ s₁ level →
    rm₁.insertBody s₁ e itype seg level = .ok (.again rm₂ s₂) → s₁ < s₂ ∧ s₂ < e
  ends : rm.insertByteRange s e itype seg 0 ≠ .error .outOfFuel
  level : ∀ s₁ e₁ itype₁,
    rm.insertByteRange s e itype seg 0 = .error (.recurseLevel s₁ e₁ itype₁) →
      1500 < rm.ranges.entries.countP fun en => decide (Overlaps s e en)

/-- What a sequence of calls that came to `s` has left of the map `rm₀`. -/
structure Trails (rm₀ rm : RangeManager) (s : ℕ) : Prop where
  frame : OnlyRanges rm₀ rm
  /-- all that reaches to `s` or behind it -/
  ahead : ∀ en : Entry, s < en.2.endSeq ∨ s ≤ en.1 →
    (en ∈ rm.ranges.entries ↔ en ∈ rm₀.ranges.entries)
  kept : OrdMap.KeysKept rm₀.ranges rm.ranges
  /-- a new range was cut off from the last one that started below it -/
  made : ∀ en ∈ rm.ranges.entries, (∃ o ∈ rm₀.ranges.entries, o.1 = en.1) ∨
    ∃ o ∈ rm₀.ranges.entries, o.1 < en.1 ∧ o.2.endSeq ≤ s ∧
      ∀ d ∈ rm₀.ranges.entries, d.1 ≤ en.1 → d.1 ≤ o.1

section Calls

variable {rm₀ rm rm' : RangeManager} {itype : InsertType} {seg : DataSeg} {level s s' e : ℕ}

theorem Trails.refl (rm : RangeManager) (s : ℕ) : Trails rm rm s :=
  ⟨rfl, fun _ _ => Iff.rfl, .refl _, fun en hen => .inl ⟨en, hen, rfl⟩⟩

theorem Trails.wfFrom (htrail : Trails rm₀ rm s) (hwf : WfEntries rm₀.ranges.entries) :
    WfFrom rm.ranges.entries s := fun en hen hahead => hwf en ((htrail.ahead en hahead).mp hen)

theorem Trails.straddles_iff (htrail : Trails rm₀ rm s) {key : ℕ} {r : ByteRange} :
    Straddles rm s key r ↔ Straddles rm₀ s key r := by
  constructor
  · intro h
    have hmem := (htrail.ahead _ (.inl h.hi)).mp h.mem
    refine ⟨hmem, h.lo, h.hi, fun d hd hds => ?_⟩
    -- no key is lost, so a range between them would still be there
    obtain ⟨d', hd', hkey⟩ := htrail.kept d hd
    have hle := h.last d' hd' (by omega)
    omega
  · intro h
    have hmem := (htrail.ahead _ (.inl h.hi)).mpr h.mem
    refine ⟨hmem, h.lo, h.hi, fun d hd hds => ?_⟩
    rcases htrail.made d hd with ⟨o, ho, hod⟩ | ⟨o, ho, hod, hend, hlast⟩
    · have hle := h.last o ho (by omega)
      omega
    · -- a range cut off behind `key` would have been cut off from `r`
      by_contra hlt
      have hkey := hlast _ h.mem (by show key ≤ d.1; omega)
      have hkey' := h.last o ho (by omega)
      have hok : o.1 = key := le_antisymm hkey' hkey
      obtain ⟨okey, ro⟩ := o
      obtain rfl : okey = key := hok
      have hro : ro = r := OrdMap.eq_of_mem ho h.mem
      have hhi := h.hi
      rw [hro] at hend
      have hend' : r.endSeq ≤ s := hend
      omega

theorem Trails.callsPast_iff (htrail : Trails rm₀ rm s) (r : ByteRange) :
    CallsPast rm itype seg level s e r ↔ CallsPast rm₀ itype seg level s e r := by
  unfold CallsPast
  cases itype with
  | sent => exact Iff.rfl
  | recv =>
      rw [htrail.frame.firstSeq]
  | sojourn =>
      have hnext : (∃ en ∈ rm.ranges.entries, s < en.1) ↔ ∃ en ∈ rm₀.ranges.entries, s < en.1 := by
        constructor
        · rintro ⟨en, hen, hlt⟩
          exact ⟨en, (htrail.ahead en (.inr hlt.le)).mp hen, hlt⟩
        · rintro ⟨en, hen, hlt⟩
          exact ⟨en, (htrail.ahead en (.inr hlt.le)).mpr hen, hlt⟩
      simp only [hnext]

/-- A call that goes on where the map before the insertion says does so. -/
theorem Trails.insertBody_again (htrail : Trails rm₀ rm s) (hwf : WfEntries rm₀.ranges.entries)
    (hgoes : GoesTo rm₀ itype seg level s e s') :
    ∃ rm', rm.insertBody s e itype seg level = .ok (.again rm' s') := by
  have hfrom := htrail.wfFrom hwf
  cases hgoes with
  | found r hmem hpast =>
      have hmem' := (htrail.ahead (s, r) (.inr le_rfl)).mpr hmem
      exact insertBody_span hfrom hmem' ((htrail.callsPast_iff r).mpr hpast)
  | inside key r hlast hover hend =>
      have hlast' : s < rm.lastSeq := by rw [htrail.frame.lastSeq]; exact hlast
      exact insertBody_inside hfrom hlast' (htrail.straddles_iff.mpr hover) hend

/-- A call goes on where the map before the insertion says, or takes over a range without bytes. -/
theorem Trails.goesTo (htrail : Trails rm₀ rm s) (h : CallsAgain rm itype seg level s e rm' s') :
    GoesTo rm₀ itype seg level s e s' ∨ itype = .sent ∧ s < s' := by
  cases h with
  | span r v hmem hpast hend =>
      have hmem' := (htrail.ahead (s, r) (.inr le_rfl)).mp hmem
      exact .inl (.found r hmem' ((htrail.callsPast_iff r).mp hpast))
  | reuse r v hitype hmem hempty hlo hhi => exact .inr ⟨hitype, hlo⟩
  | split key r v w hlast hover hend hv hw =>
      rw [htrail.frame.lastSeq] at hlast
      exact .inl (.inside key r hlast (htrail.straddles_iff.mp hover) hend)
  | inside key r hlast hover hend =>
      rw [htrail.frame.lastSeq] at hlast
      exact .inl (.inside key r hlast (htrail.straddles_iff.mp hover) hend)

/-- The range a call meets lies between the starts of the two calls. -/
theorem CallsAgain.met (h : CallsAgain rm itype seg level s e rm' s') (hlt : s < s') :
    s' < e ∧ ∃ en ∈ rm.ranges.entries, (s < en.2.endSeq ∨ s ≤ en.1) ∧ en.1 < s' ∧
      en.2.endSeq ≤ s' := by
  cases h with
  | span r v hmem hpast hend =>
      exact ⟨hpast.2.1, (s, r), hmem, .inr le_rfl, hlt, le_rfl⟩
  | reuse r v hitype hmem hempty hlo hhi =>
      exact ⟨hhi, (s, r), hmem, .inr le_rfl, hlt, hempty.le.trans hlt.le⟩
  | split key r v w hlast hover hend | inside key r hlast hover hend =>
      exact ⟨hend, (key, r), hover.mem, .inl hover.hi, hover.lo.trans hlt, le_rfl⟩

/-- Replacing a range that ends by `s'` changes nothing from there on. -/
theorem ahead_modify {m : OrdMap ℕ ByteRange} {key : ℕ} {r v : ByteRange} {en : Entry}
    (hmem : (key, r) ∈ m.entries) (hkey : key < s') (hr : r.endSeq ≤ s') (hv : v.endSeq ≤ s')
    (hahead : s' < en.2.endSeq ∨ s' ≤ en.1) :
    en ∈ (m.modify key fun _ => v).entries ↔ en ∈ m.entries := by
  rw [OrdMap.mem_modify_iff]
  constructor
  · rintro (⟨hen, -⟩ | ⟨_, _, rfl⟩)
    · exact hen
    · have hahead' : s' < v.endSeq ∨ s' ≤ key := hahead
      omega
  · intro hen
    left
    refine ⟨hen, ?_⟩
    rintro rfl
    have heq : en.2 = r := OrdMap.eq_of_mem hen hmem
    rw [heq] at hahead
    omega

theorem Trails.next_modify (htrail : Trails rm₀ rm s) {key : ℕ} {r v : ByteRange}
    (hmem : (key, r) ∈ rm.ranges.entries) (hlt : s < s') (hkey : key < s') (hr : r.endSeq ≤ s')
    (hv : v.endSeq ≤ s') :
    Trails rm₀ { rm with ranges := rm.ranges.modify key fun _ => v } s' := by
  refine ⟨htrail.frame.trans rfl, fun en hen => ?_,
    htrail.kept.trans (OrdMap.keysKept_modify _ _ _), fun en hen => ?_⟩
  · show en ∈ (rm.ranges.modify key fun _ => v).entries ↔ _
    rw [ahead_modify hmem hkey hr hv hen, htrail.ahead en (by omega)]
  · have hold : ∃ d ∈ rm.ranges.entries, d.1 = en.1 := by
      rcases OrdMap.mem_modify hen with hen | ⟨w, hw, rfl⟩
      · exact ⟨en, hen, rfl⟩
      · exact ⟨_, hw, rfl⟩
    obtain ⟨d, hd, hde⟩ := hold
    rcases htrail.made d hd with ⟨o, ho, hod⟩ | ⟨o, ho, hod, hend, hlast⟩
    · exact .inl ⟨o, ho, hod.trans hde⟩
    · rw [hde] at hod hlast
      exact .inr ⟨o, ho, hod, hend.trans hlt.le, hlast⟩

theorem Trails.next (htrail : Trails rm₀ rm s) (h : CallsAgain rm itype seg level s e rm' s')
    (hlt : s < s') : Trails rm₀ rm' s' := by
  cases h with
  | span r v hmem hpast hend => exact htrail.next_modify hmem hlt hlt le_rfl hend.le
  | reuse r v hitype hmem hempty hlo hhi =>
      exact htrail.next_modify hmem hlt hlt (hempty.le.trans hlt.le) le_rfl
  | inside key r hlast hover hend =>
      refine ⟨htrail.frame, fun en hen => htrail.ahead en (by omega), htrail.kept, fun en hen => ?_⟩
      rcases htrail.made en hen with hold | ⟨o, ho, hoe, hend', hgap⟩
      · exact .inl hold
      · exact .inr ⟨o, ho, hoe, hend'.trans hlt.le, hgap⟩
  | split key r v w hlast hover hend hv hw =>
      -- both parts of the range that is cut end where the next call starts, or before
      have hkey : key < r.endSeq := hover.lo.trans hlt
      have hmod := htrail.next_modify hover.mem hlt hkey le_rfl (hv.le.trans hlt.le)
      have hfree : ∀ en ∈ (rm.ranges.modify key fun _ => v).entries, en.1 ≠ s := by
        intro en hen
        rcases OrdMap.mem_modify hen with hen | ⟨_, _, rfl⟩
        · exact OrdMap.find?_eq_none_iff.mp hover.free en hen
        · exact hover.lo.ne
      refine ⟨htrail.frame.trans rfl, fun en hen => ?_,
        hmod.kept.trans (OrdMap.keysKept_insert _ _ _), fun en hen => ?_⟩
      · show en ∈ ((rm.ranges.modify key fun _ => v).insert s w).entries ↔ _
        rw [OrdMap.mem_insert_iff hfree, hmod.ahead en hen |>.symm]
        constructor
        · rintro (rfl | hen')
          · have hen' : r.endSeq < w.endSeq ∨ r.endSeq ≤ s := hen
            omega
          · exact hen'
        · exact .inr
      · rcases (OrdMap.mem_insert_iff hfree).mp hen with rfl | hen
        · have hover₀ := htrail.straddles_iff.mp hover
          exact .inr ⟨(key, r), hover₀.mem, hover₀.lo, le_rfl, hover₀.last⟩
        · exact hmod.made en hen

/-- What holds at call number `level` with the data from `p` on. -/
structure Called (rm : RangeManager) (itype : InsertType) (seg : DataSeg) (s e : ℕ)
    (rm' : RangeManager) (p level : ℕ) : Prop where
  trail : Trails rm rm' p
  lo : s ≤ p
  hi : p < e
  comes : itype ≠ .sent → ComesTo rm itype seg s e level p
  /-- one range for each call before, all of them behind `p` -/
  met : ∃ l : List Entry, l.Nodup ∧ l.length = level ∧ ∀ en ∈ l, en ∈ rm.ranges.entries ∧
    Overlaps s e en ∧ en.1 < p ∧ en.2.endSeq ≤ p

variable {p p' : ℕ}

theorem called_start (rm : RangeManager) (itype : InsertType) (seg : DataSeg) (hlt : s < e) :
    Called rm itype seg s e rm s 0 :=
  ⟨.refl rm s, le_rfl, hlt, fun _ => .start, [], List.nodup_nil, rfl, fun _ h => (nomatch h)⟩

/-- The step: unless it stalls, a recursive call starts later, with one more range met. -/
theorem Called.next (hcalled : Called rm₀ itype seg s e rm p level)
    (hwf : WfEntries rm₀.ranges.entries) (hstall : ¬Stalls rm₀ itype seg s e)
    (h : rm.insertBody p e itype seg level = .ok (.again rm' p')) :
    p < p' ∧ Called rm₀ itype seg s e rm' p' (level + 1) := by
  have htrail := hcalled.trail
  have hfrom := htrail.wfFrom hwf
  have hagain := insertBody_callsAgain hfrom hcalled.hi h
  have hle : p ≤ p' := by
    cases hagain with
    | span r v hmem hpast hend =>
        have hr : p = r.startSeq ∧ r.Wf := hfrom _ hmem (.inr le_rfl)
        exact hr.1.le.trans hr.2.le
    | reuse r v hitype hmem hempty hlo hhi => exact hlo.le
    | split key r v w hlast hover | inside key r hlast hover => exact hover.hi.le
  -- a call that stays where it is stalls
  have hlt : p < p' := by
    apply lt_of_le_of_ne hle
    rintro rfl
    rcases htrail.goesTo hagain with hgoes | ⟨-, hlt⟩
    · by_cases hsent : itype = .sent
      · subst hsent
        cases hgoes with
        | found r hmem hpast => exact lt_irrefl _ hpast.2.2
        | inside key r hlast hover hend => exact lt_irrefl _ hover.hi
      · exact hstall ⟨hsent, level, p, hcalled.comes hsent, hgoes⟩
    · exact lt_irrefl p hlt
  -- the range met starts below the next call and ends by it; those met before end by this one
  obtain ⟨hhi, en, hen, hahead, hkey, hend⟩ := hagain.met hlt
  have hen₀ := (htrail.ahead en hahead).mp hen
  obtain ⟨l, hnodup, hlength, hl⟩ := hcalled.met
  refine ⟨hlt, htrail.next hagain hlt, hcalled.lo.trans hle, hhi, fun hsent => ?_, en :: l, ?_, ?_,
    ?_⟩
  · have hgoes := (htrail.goesTo hagain).resolve_right fun h => hsent h.1
    exact .next (hcalled.comes hsent) hgoes
  · apply List.nodup_cons.mpr ⟨fun hmem => ?_, hnodup⟩
    obtain ⟨-, -, hkey', hend'⟩ := hl en hmem
    omega
  · rw [List.length_cons, hlength]
  · have hlo := hcalled.lo
    have hoverlaps : Overlaps s e en := ⟨hkey.trans hhi, by omega⟩
    rw [List.forall_mem_cons]
    refine ⟨⟨hen₀, hoverlaps, hkey, hend⟩, fun d hd => ?_⟩
    obtain ⟨hd₀, hd', hdkey, hdend⟩ := hl d hd
    exact ⟨hd₀, hd', hdkey.trans_le hle, hdend.trans hle⟩

/-- At call number `level`, the data overlaps at least that many ranges. -/
theorem Called.level_le (hcalled : Called rm₀ itype seg s e rm p level) :
    level ≤ rm₀.ranges.entries.countP fun en => decide (Overlaps s e en) := by
  obtain ⟨l, hnodup, hlength, hl⟩ := hcalled.met
  rw [← hlength, List.countP_eq_length_filter]
  apply List.Subperm.length_le
  apply hnodup.subperm
  intro en hen
  exact List.mem_filter.mpr ⟨(hl en hen).1, decide_eq_true (hl en hen).2.1⟩

theorem Called.of_visits {rm₁ : RangeManager} {s₁ level₁ : ℕ}
    (hvisits : Visits e itype seg rm s level rm₁ s₁ level₁) {t : ℕ}
    (hcalled : Called rm₀ itype seg t e rm s level) (hwf : WfEntries rm₀.ranges.entries)
    (hstall : ¬Stalls rm₀ itype seg t e) : Called rm₀ itype seg t e rm₁ s₁ level₁ := by
  induction hvisits with
  | here => exact hcalled
  | again hbody _ ih => exact ih (hcalled.next hwf hstall hbody).2

/-! ## The loop -/

theorem Visits.snoc {rm₁ rm₂ : RangeManager} {s₁ s₂ level₁ : ℕ}
    (hvisits : Visits e itype seg rm s level rm₁ s₁ level₁)
    (hbody : rm₁.insertBody s₁ e itype seg level₁ = .ok (.again rm₂ s₂)) :
    Visits e itype seg rm s level rm₂ s₂ (level₁ + 1) := by
  induction hvisits with
  | here => exact .again hbody (.here _ _ _)
  | again hbody' _ ih => exact .again hbody' (ih hbody)

/-- A failing insertion fails in one of its calls, if the fuel lasts for all of them. -/
theorem insertLoop_error {fuel : ℕ} {err : Abort}
    (hcalls : ∀ rm₁ s₁ level₁ rm₂ s₂, Visits e itype seg rm s level rm₁ s₁ level₁ →
      rm₁.insertBody s₁ e itype seg level₁ = .ok (.again rm₂ s₂) → s₁ < s₂ ∧ s₂ < e)
    (hlt : s < e) (hfuel : e - s ≤ fuel)
    (h : insertLoop e itype seg fuel rm s level = .error err) :
    ∃ rm₁ s₁ level₁, Visits e itype seg rm s level rm₁ s₁ level₁ ∧
      rm₁.insertBody s₁ e itype seg level₁ = .error err := by
  -- each call uses up one unit of fuel and at least one byte
  induction fuel generalizing rm s level with
  | zero => omega
  | succ fuel ih =>
      rw [insertLoop] at h
      split at h
      · next hbody =>
          rw [← Except.error.inj h]
          exact ⟨rm, s, level, .here _ _ _, hbody⟩
      · cases h
      · next rm₁ s₁ hbody =>
          obtain ⟨hlo, hhi⟩ := hcalls rm s level rm₁ s₁ (.here _ _ _) hbody
          obtain ⟨rm₂, s₂, level₂, hvisits, herr⟩ := ih
            (fun _ _ _ _ _ hvisits => hcalls _ _ _ _ _ (.again hbody hvisits)) hhi (by omega) h
          exact ⟨rm₂, s₂, level₂, .again hbody hvisits, herr⟩

/-- An insertion that does not stall advances, and fails only in one of its calls. -/
theorem calls_advance (hwf : WfEntries rm.ranges.entries) (hlt : s < e)
    (hstall : ¬Stalls rm itype seg s e) {rm₁ rm₂ : RangeManager} {s₁ s₂ : ℕ}
    (hvisits : Visits e itype seg rm s 0 rm₁ s₁ level)
    (hbody : rm₁.insertBody s₁ e itype seg level = .ok (.again rm₂ s₂)) : s₁ < s₂ ∧ s₂ < e := by
  have hcalled := Called.of_visits hvisits (called_start rm itype seg hlt) hwf hstall
  obtain ⟨hlo, hnext⟩ := hcalled.next hwf hstall hbody
  exact ⟨hlo, hnext.hi⟩

theorem insertByteRange_error (hwf : WfEntries rm.ranges.entries) (hlt : s < e)
    (hstall : ¬Stalls rm itype seg s e) {err : Abort}
    (h : rm.insertByteRange s e itype seg 0 = .error err) :
    ∃ rm₁ s₁ level, Visits e itype seg rm s 0 rm₁ s₁ level ∧
      Called rm itype seg s e rm₁ s₁ level ∧ rm₁.insertBody s₁ e itype seg level = .error err := by
  have hfuel : e - s ≤ e - s + recursionLevel + 2 := by omega
  obtain ⟨rm₁, s₁, level, hvisits, hbody⟩ := insertLoop_error
    (fun _ _ _ _ _ hvisits hbody => calls_advance hwf hlt hstall hvisits hbody) hlt hfuel h
  exact ⟨rm₁, s₁, level, hvisits, .of_visits hvisits (called_start rm itype seg hlt) hwf hstall,
    hbody⟩

/-- Data that comes to `p` on the map before the insertion comes there, if it advances. -/
theorem ComesTo.visits {rm : RangeManager} {s p : ℕ} (hcomes : ComesTo rm itype seg s e level p)
    (hwf : WfEntries rm.ranges.entries) (hlt : s < e) (hadv : Advances rm itype seg s e) :
    ∃ rm', Visits e itype seg rm s 0 rm' p level ∧ Trails rm rm' p ∧ p < e := by
  induction hcomes with
  | start => exact ⟨rm, .here _ _ _, .refl rm s, hlt⟩
  | next hcomes hgoes ih =>
      obtain ⟨rm₁, hvisits, htrail, hhi⟩ := ih
      obtain ⟨rm₂, hbody⟩ := htrail.insertBody_again hwf hgoes
      obtain ⟨hlo, hhi'⟩ := hadv.calls _ _ _ _ _ hvisits hbody
      have hagain := insertBody_callsAgain (htrail.wfFrom hwf) hhi hbody
      exact ⟨rm₂, hvisits.snoc hbody, htrail.next hagain hlo, hhi'⟩

/-- The recursion advances, unless received data or a sojourn entry stalls on a range without
bytes. -/
theorem insertByteRange_advances_iff (rm : RangeManager) (itype : InsertType) (seg : DataSeg)
    {s e : ℕ} (hwf : WfEntries rm.ranges.entries) (hlt : s < e) :
    Advances rm itype seg s e ↔ ¬Stalls rm itype seg s e := by
  constructor
  · -- if it advanced, it would come to the call that stalls
    rintro hadv ⟨-, level, p, hcomes, hgoes⟩
    obtain ⟨rm', hvisits, htrail, -⟩ := hcomes.visits hwf hlt hadv
    obtain ⟨rm'', hbody⟩ := htrail.insertBody_again hwf hgoes
    exact lt_irrefl p (hadv.calls _ _ _ _ _ hvisits hbody).1
  · intro hstall
    refine ⟨fun _ _ _ _ _ hvisits hbody => calls_advance hwf hlt hstall hvisits hbody, fun h => ?_,
      fun s₁ e₁ itype₁ h => ?_⟩
    · obtain ⟨_, _, _, -, -, hbody⟩ := insertByteRange_error hwf hlt hstall h
      exact insertBody_error hbody
    · obtain ⟨rm₁, p, level, -, hcalled, hbody⟩ := insertByteRange_error hwf hlt hstall h
      have hlevel : recursionLevel < level := insertBody_error hbody
      exact hlevel.trans_le hcalled.level_le

theorem insertByteRange_advances_iff_ten : Advances tenBytes .recv { tstampTcp := 7 } 0 20 := by
  apply (insertByteRange_advances_iff tenBytes .recv { tstampTcp := 7 }
    tenBytes_wellFormed.apart.1 (by decide)).mpr
  have hgoes : ∀ level p p', GoesTo tenBytes .recv { tstampTcp := 7 } level p 20 p' →
      p < p' := by
    intro level p p' h
    cases h with
    | found r hmem hpast =>
        obtain ⟨rfl, rfl⟩ := Prod.mk.inj (List.mem_singleton.mp hmem)
        rw [freshRange_endSeq]
        decide
    | inside key r hlast hover hend => exact hover.hi
  rintro ⟨-, level, p, -, h⟩
  exact lt_irrefl p (hgoes level p p h)

/-- The range of a pure ACK at 5, which holds no bytes. -/
def emptyRangeAtFive : RangeManager :=
  { new 0 with ranges := OrdMap.empty.insert 5 (ByteRange.blank 5 5), lastSeq := 5 }

/-- Three bytes received at the range call again for the same three bytes. -/
theorem insertByteRange_stalls_on_pure_ack :
    (∃ rm', emptyRangeAtFive.insertBody 5 8 .recv { tstampTcp := 7 } 0 = .ok (.again rm' 5)) ∧
      ¬∀ rm itype seg s e, WfEntries rm.ranges.entries → s < e → Advances rm itype seg s e := by
  have hentries : ∀ en ∈ emptyRangeAtFive.ranges.entries, en = (5, ByteRange.blank 5 5) :=
    fun en hen => List.mem_singleton.mp hen
  have hwf : WfEntries emptyRangeAtFive.ranges.entries := by
    intro en hen
    rw [hentries en hen]
    exact ⟨rfl, rfl, by decide⟩
  have hpast : CallsPast emptyRangeAtFive .recv { tstampTcp := 7 } 0 5 8 (ByteRange.blank 5 5) :=
    ⟨by decide, by decide, by decide, by decide⟩
  have hbody : ∃ rm',
      emptyRangeAtFive.insertBody 5 8 .recv { tstampTcp := 7 } 0 = .ok (.again rm' 5) :=
    insertBody_span (fun en hen _ => hwf en hen) (List.mem_singleton_self _) hpast
  refine ⟨hbody, fun h => ?_⟩
  obtain ⟨rm', hbody⟩ := hbody
  have hadv := h emptyRangeAtFive .recv { tstampTcp := 7 } 5 8 hwf (by decide)
  exact lt_irrefl 5 (hadv.calls _ _ _ _ _ (.here _ _ _) hbody).1

end Calls

end RangeManager

end AnalyseTCP
