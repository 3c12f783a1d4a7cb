import AnalyseTCP.InsertPass

/-!
# The loop of `insertByteRange`

What every pass keeps of the geometry of the map, and the rules that lift a property of single
passes to a whole insertion.
-/

namespace AnalyseTCP

namespace RangeManager

/-- Wherever data from `s` up to `e` has to open a new range, at `s` or behind an existing range, no
other range starts before `e`. -/
def NoSkip (l : List Entry) (s e : ℕ) : Prop :=
  ∀ h, s ≤ h → h < e → (h = s ∨ ∃ en ∈ l, en.2.endSeq = h) → ¬Held l h →
    ∀ en ∈ l, en.1 ≤ h ∨ e ≤ en.1

/-- The entries before a pass that inserts the data from `s` up to `e`. -/
structure Ready (lastSeq : ℕ) (itype : InsertType) (e : ℕ) (l : List Entry) (s : ℕ) : Prop where
  sorted : l.Pairwise fun a b => a.1 < b.1
  wf : WfEntries l
  sep : Separated l
  lt : s < e
  size : itype = .sent → e - s < 2 ^ 16 - 1
  inside : ∀ en ∈ l, en.1 < s → s < en.2.endSeq → s < lastSeq
  noSkip : NoSkip l s e
  bytes : itype = .recv → ∀ en ∈ l, s ≤ en.1 → en.1 < e → en.1 < en.2.endSeq

section Endpoints

variable (itype : InsertType) (seg : DataSeg) (level s e c : ℕ) (r : ByteRange)

@[simp] theorem freshRange_startSeq : (freshRange seg s e).startSeq = s := finSet_startSeq seg _
@[simp] theorem freshRange_endSeq : (freshRange seg s e).endSeq = e := finSet_endSeq seg _
@[simp] theorem freshRange_byteCount : (freshRange seg s e).byteCount = e - s :=
  finSet_byteCount seg _

@[simp] theorem reusedRange_startSeq : (reusedRange seg s c r).startSeq = r.startSeq := rfl
@[simp] theorem reusedRange_endSeq : (reusedRange seg s c r).endSeq = c := rfl
@[simp] theorem reusedRange_byteCount : (reusedRange seg s c r).byteCount = c - r.startSeq := rfl

theorem wholeRange_blind {α : Type} {f : ByteRange → α} (hf : ∀ r c, f { r with syn := c } = f r) :
    f (wholeRange itype seg level s r) =
      f (recordFound seg level (thisIsRdbData seg s) itype r) := by
  unfold wholeRange
  split
  · exact synIncrease_blind seg _ hf
  · rfl

@[simp] theorem wholeRange_startSeq : (wholeRange itype seg level s r).startSeq = r.startSeq :=
  (wholeRange_blind itype seg level s r fun _ _ => rfl).trans (recordFound_startSeq ..)
@[simp] theorem wholeRange_endSeq : (wholeRange itype seg level s r).endSeq = r.endSeq :=
  (wholeRange_blind itype seg level s r fun _ _ => rfl).trans (recordFound_endSeq ..)
@[simp] theorem wholeRange_byteCount : (wholeRange itype seg level s r).byteCount = r.byteCount :=
  (wholeRange_blind itype seg level s r fun _ _ => rfl).trans (recordFound_byteCount ..)

end Endpoints

/-! ## What one pass keeps -/

/-- Ranges within `[lo, hi)` fit between entries that leave room for them. -/
theorem separated_between {pre new post : List Entry} (lo hi : ℕ) (hold : Separated (pre ++ post))
    (hnew : Separated new) (hpre : ∀ en ∈ pre, en.2.endSeq ≤ lo)
    (hpost : ∀ en ∈ post, hi ≤ en.2.startSeq)
    (hwithin : ∀ en ∈ new, lo ≤ en.2.startSeq ∧ en.2.endSeq ≤ hi) :
    Separated (pre ++ new ++ post) := by
  obtain ⟨h₁, h₂, h₁₂⟩ := separated_append.mp hold
  refine separated_append.mpr ⟨separated_append.mpr ⟨h₁, hnew, ?_⟩, h₂, ?_⟩
  · exact fun a ha b hb => (hpre a ha).trans (hwithin b hb).1
  · intro a ha b hb
    rcases List.mem_append.mp ha with ha | ha
    · exact h₁₂ a ha b hb
    · exact (hwithin a ha).2.trans (hpost b hb)

theorem separated_around {pre post : List Entry} {en : Entry}
    (h : Separated (pre ++ [en] ++ post)) :
    Separated (pre ++ post) ∧ (∀ a ∈ pre, a.2.endSeq ≤ en.2.startSeq) ∧
      ∀ b ∈ post, en.2.endSeq ≤ b.2.startSeq := by
  rw [List.append_assoc, List.singleton_append] at h
  obtain ⟨hpre, hrest, hcross⟩ := separated_append.mp h
  obtain ⟨hpost, hpost'⟩ := separated_cons.mp hrest
  refine ⟨separated_append.mpr ⟨hpre, hpost', ?_⟩, ?_, hpost⟩
  · exact fun a ha b hb => hcross a ha b (List.mem_cons_of_mem en hb)
  · exact fun a ha => hcross a ha en List.mem_cons_self

section Pass

variable {lastSeq : ℕ} {itype : InsertType} {seg : DataSeg} {level s e : ℕ}
  {pre post old new : List Entry} {next : Option ℕ}

theorem Pass.next_bounds (hpass : Pass lastSeq itype seg level s e pre post old new next) {s' : ℕ}
    (hnext : next = some s') : s < s' ∧ s' < e := by
  cases hpass with
  | fresh | missing | whole | front | back | middle => cases hnext
  | span r hbytes hend hlevel =>
      obtain rfl := Option.some.inj hnext
      exact ⟨hbytes, hend⟩
  | reuse r c hitype hempty hlo hhi hpost hafter hsize =>
      split at hnext
      · next hce =>
          obtain rfl := Option.some.inj hnext
          exact ⟨hlo, hce⟩
      · cases hnext
  | beyond key r hkey hlo hend =>
      obtain rfl := Option.some.inj hnext
      exact ⟨hlo, hend⟩

theorem Pass.wf (hpass : Pass lastSeq itype seg level s e pre post old new next) (hlt : s < e)
    (hwf : WfEntries (pre ++ old ++ post)) : WfEntries (pre ++ new ++ post) := by
  rw [wfEntries_append, wfEntries_append] at hwf ⊢
  obtain ⟨⟨hpre, hold⟩, hpost⟩ := hwf
  refine ⟨⟨hpre, ?_⟩, hpost⟩
  cases hpass with
  | missing => exact hold
  | fresh hitype hpre hpost hgap hsize =>
      simp [wfEntries_cons, wfEntries_nil, ByteRange.wf_iff]
      omega
  | whole r hend | span r hbytes hend hlevel =>
      simpa [wfEntries_cons, ByteRange.wf_iff] using hold
  | reuse r c hitype hempty hlo hhi hpost hnext hsize =>
      simp [wfEntries_cons, wfEntries_nil, ByteRange.wf_iff] at hold ⊢
      omega
  | front r hend =>
      simp [wfEntries_cons, wfEntries_nil, ByteRange.wf_iff] at hold ⊢
      omega
  | back key r hkey hlo hend | beyond key r hkey hlo hend =>
      simp [wfEntries_cons, wfEntries_nil, ByteRange.wf_iff] at hold ⊢
      omega
  | middle key r hkey hend =>
      simp [wfEntries_cons, wfEntries_nil, ByteRange.wf_iff] at hold ⊢
      omega

/-- A pass keeps the ranges apart; a range that it opens needs room. -/
theorem Pass.separated_of_room (hpass : Pass lastSeq itype seg level s e pre post old new next)
    (hwf : WfEntries (pre ++ old ++ post)) (hsep : Separated (pre ++ old ++ post)) (hlt : s < e)
    (hroom : itype = .sent → old = [] → (∀ en ∈ pre, en.2.endSeq ≤ s) ∧
      ∀ en ∈ post, e ≤ en.2.startSeq) : Separated (pre ++ new ++ post) := by
  -- one case per pass: the new pieces lie where the old range was, so the neighbours stay apart
  cases hpass with
  | missing => exact hsep
  | fresh hitype hpre hpost hgap hsize =>
      rw [List.append_nil] at hsep
      -- only here bytes are covered that no range held
      obtain ⟨hbelow, habove⟩ := hroom hitype rfl
      exact separated_between s e hsep (List.pairwise_singleton _ _) hbelow habove (by simp)
  | whole r hend | span r hbytes hend hlevel =>
      obtain ⟨hsep', hpre, hpost⟩ := separated_around hsep
      exact separated_between _ _ hsep' (List.pairwise_singleton _ _) hpre hpost (by simp)
  | reuse r c hitype hempty hlo hhi hpost hnext hsize =>
      obtain ⟨hsep', hpre, -⟩ := separated_around hsep
      have hpost' : ∀ en ∈ post, c ≤ en.2.startSeq := fun en hen =>
        (hwf en (by simp [hen])).1 ▸ hpost en hen
      exact separated_between _ _ hsep' (List.pairwise_singleton _ _) hpre hpost' (by simp)
  | front r hend =>
      obtain ⟨hsep', hpre, hpost⟩ := separated_around hsep
      have hstart : s = r.startSeq := (hwf (s, r) (by simp)).1
      refine separated_between _ _ hsep' ?_ hpre hpost ?_
      · simp [separated_cons, separated_nil]
      · simp
        omega
  | back key r hkey hlo hend | beyond key r hkey hlo hend =>
      obtain ⟨hsep', hpre, hpost⟩ := separated_around hsep
      have hstart : key = r.startSeq := (hwf (key, r) (by simp)).1
      refine separated_between _ _ hsep' ?_ hpre hpost ?_
      · simp [separated_cons, separated_nil]
      · simp
        omega
  | middle key r hkey hend =>
      obtain ⟨hsep', hpre, hpost⟩ := separated_around hsep
      have hstart : key = r.startSeq := (hwf (key, r) (by simp)).1
      refine separated_between _ _ hsep' ?_ hpre hpost ?_
      · simp [separated_cons, separated_nil]
        omega
      · simp
        omega

theorem Pass.separated (hpass : Pass lastSeq itype seg level s e pre post old new next)
    (hready : Ready lastSeq itype e (pre ++ old ++ post) s) : Separated (pre ++ new ++ post) := by
  have hwf := hready.wf
  have hlt := hready.lt
  apply hpass.separated_of_room hwf hready.sep hlt
  rintro rfl rfl
  cases hpass with
  | missing hitype => cases hitype
  | fresh hitype hpre hpost hgap hsize =>
      rw [List.append_nil] at hwf
      -- `s` starts no range and lies in none, so nothing starts before `e` either
      have hfree : ∀ en ∈ pre ++ post, en.1 ≠ s := by
        intro en hen
        rcases List.mem_append.mp hen with hen | hen
        · exact (hpre en hen).ne
        · exact (hpost en hen).ne'
      have hnot : ∀ en ∈ pre ++ post, ¬en.2.Holds s := by
        intro en hen hhold
        have hkey : en.1 = en.2.startSeq := (hwf en hen).1
        have hlow : en.1 < s := lt_of_le_of_ne (hkey ▸ hhold.1) (hfree en hen)
        exact hgap (hready.inside en (by simpa using hen) hlow hhold.2) en hen hhold
      have hheld : ¬Held (pre ++ post) s := fun ⟨en, hen, h⟩ =>
        h.elim (hfree en hen) (hnot en hen)
      -- and no range starts inside the new one, or it would have been skipped
      have hskip := hready.noSkip s le_rfl hlt (.inl rfl) (by simpa using hheld)
      constructor
      · intro en hen
        have hkey : en.1 = en.2.startSeq := (hwf en (List.mem_append_left _ hen)).1
        have hlow := hpre en hen
        have := hnot en (List.mem_append_left _ hen)
        unfold ByteRange.Holds at this
        omega
      · intro en hen
        have hkey : en.1 = en.2.startSeq := (hwf en (List.mem_append_right _ hen)).1
        have hhigh := hpost en hen
        have := hskip en (by simp [hen])
        omega

/-- A pass that is continued at `s'` leaves everything from `s'` on as it was. -/
structure Continues (pre old new post : List Entry) (s s' : ℕ) : Prop where
  pre_le : ∀ en ∈ pre, en.1 < s' ∧ en.2.endSeq ≤ s
  old_le : ∀ en ∈ old, en.1 < s' ∧ en.2.endSeq ≤ s'
  new_le : ∀ en ∈ new, en.1 < s' ∧ en.2.endSeq ≤ s'
  le_post : ∀ en ∈ post, s' ≤ en.1
  reached : (∃ en ∈ old, en.2.endSeq = s') ∨ ∃ en ∈ post, en.1 = s'

theorem Pass.continues (hpass : Pass lastSeq itype seg level s e pre post old new next)
    (hwf : WfEntries (pre ++ old ++ post)) (hsep : Separated (pre ++ old ++ post)) {s' : ℕ}
    (hnext : next = some s') : Continues pre old new post s s' := by
  have hbounds := hpass.next_bounds hnext
  have hkeys : ∀ en ∈ pre ++ old ++ post, en.1 = en.2.startSeq ∧ en.2.startSeq ≤ en.2.endSeq :=
    fun en hen => ⟨(hwf en hen).1, (hwf en hen).2.le⟩
  have hpost' : ∀ en ∈ post, en.1 = en.2.startSeq := fun en hen => (hkeys en (by simp [hen])).1
  have hpre' : ∀ en ∈ pre, en.1 ≤ en.2.endSeq := fun en hen => by
    have := hkeys en (by simp [hen])
    omega
  cases hpass with
  | fresh | missing | whole | front | back | middle => cases hnext
  -- the three passes that call again: past the end of the range, or up to the next range
  | span r hbytes hend hlevel =>
      obtain rfl := Option.some.inj hnext
      obtain ⟨-, hpre, hpost⟩ := separated_around hsep
      have hr := hkeys (s, r) (by simp)
      refine ⟨?_, by simp; omega, by simp; omega, ?_, .inl ⟨(s, r), by simp, rfl⟩⟩
      · intro en hen
        have := hpre en hen
        have := hpre' en hen
        omega
      · intro en hen
        have hle : r.endSeq ≤ en.2.startSeq := hpost en hen
        have := hpost' en hen
        omega
  | reuse r c hitype hempty hlo hhi hpost hafter hsize =>
      split at hnext
      · next hce =>
          obtain rfl := Option.some.inj hnext
          obtain ⟨-, hpre, -⟩ := separated_around hsep
          have hr := hkeys (s, r) (by simp)
          refine ⟨?_, by simp; omega, by simp; omega, hpost, .inr (hafter hce)⟩
          intro en hen
          have := hpre en hen
          have := hpre' en hen
          omega
      · cases hnext
  | beyond key r hkey hlo hend =>
      obtain rfl := Option.some.inj hnext
      obtain ⟨-, hpre, hpost⟩ := separated_around hsep
      have hr := hkeys (key, r) (by simp)
      refine ⟨?_, by simp; omega, by simp; omega, ?_, .inl ⟨(key, r), by simp, rfl⟩⟩
      · intro en hen
        have := hpre en hen
        have := hpre' en hen
        omega
      · intro en hen
        have hle : r.endSeq ≤ en.2.startSeq := hpost en hen
        have := hpost' en hen
        omega

theorem Continues.held {s' h : ℕ} (hcont : Continues pre old new post s s') (hle : s' ≤ h)
    (hheld : Held (pre ++ old ++ post) h) : Held (pre ++ new ++ post) h := by
  obtain ⟨en, hmem, hen⟩ := hheld
  by_cases hold : en ∈ old
  · have := hcont.old_le en hold
    unfold ByteRange.Holds at hen
    omega
  · refine ⟨en, ?_, hen⟩
    simp only [List.mem_append] at hmem ⊢
    tauto

theorem Continues.noSkip {s' : ℕ} (hcont : Continues pre old new post s s') (hs : s < s')
    (hskip : NoSkip (pre ++ old ++ post) s e) : NoSkip (pre ++ new ++ post) s' e := by
  intro h hle hlt hcand hheld en hen
  have hheld' : ¬Held (pre ++ old ++ post) h := fun hh => hheld (hcont.held hle hh)
  have hends : ∃ en ∈ pre ++ old ++ post, en.2.endSeq = h := by
    by_cases hs' : h = s'
    · rcases hcont.reached with ⟨d, hd, hdend⟩ | ⟨d, hd, hdkey⟩
      · exact ⟨d, by simp [hd], hdend.trans hs'.symm⟩
      · exact absurd ⟨d, by simp [hd], .inl (hdkey.trans hs'.symm)⟩ hheld
    · obtain ⟨d, hd, hdend⟩ := hcand.resolve_left hs'
      have hnew : d ∉ new := fun hd' => by
        have := hcont.new_le d hd'
        omega
      refine ⟨d, ?_, hdend⟩
      simp only [List.mem_append] at hd ⊢
      tauto
  by_cases hnew : en ∈ new
  · have := hcont.new_le en hnew
    omega
  · refine hskip h (by omega) hlt (.inr hends) hheld' en ?_
    simp only [List.mem_append] at hen ⊢
    tauto

/-- One pass keeps the map ready for the next. -/
theorem Pass.ready (hpass : Pass lastSeq itype seg level s e pre post old new next)
    (hready : Ready lastSeq itype e (pre ++ old ++ post) s)
    (hsorted : (pre ++ new ++ post).Pairwise fun a b => a.1 < b.1) {s' : ℕ}
    (hnext : next = some s') : Ready lastSeq itype e (pre ++ new ++ post) s' := by
  have hcont := hpass.continues hready.wf hready.sep hnext
  have hbounds := hpass.next_bounds hnext
  have hsize : itype = .sent → e - s' < 2 ^ 16 - 1 := fun h => by
    have := hready.size h
    omega
  have hsep := hpass.separated hready
  have hwf := hpass.wf hready.lt hready.wf
  refine ⟨hsorted, hwf, hsep, hbounds.2, hsize, ?_, hcont.noSkip hbounds.1 hready.noSkip, ?_⟩
  · intro en hen hlow hhigh
    simp only [List.mem_append] at hen
    rcases hen with (hen | hen) | hen
    · have := hcont.pre_le en hen
      omega
    · have := hcont.new_le en hen
      omega
    · have := hcont.le_post en hen
      omega
  · intro hitype en hen hle hlt
    have hnew : en ∉ new := fun h => by
      have := hcont.new_le en h
      omega
    refine hready.bytes hitype en ?_ (by omega) hlt
    simp only [List.mem_append] at hen ⊢
    tauto

end Pass

/-! ## Whole insertions -/

section Loop

variable {itype : InsertType} {seg : DataSeg} {e : ℕ}
  {Inv : List Entry → ℕ → ℕ → Prop} {Post : List Entry → Prop}

/-- `Inv l s level` holds before every pass and `Post` after the last one. -/
def PassKeeps (lastSeq : ℕ) (itype : InsertType) (seg : DataSeg) (e : ℕ)
    (Inv : List Entry → ℕ → ℕ → Prop) (Post : List Entry → Prop) : Prop :=
  ∀ s level pre old new post next,
    Ready lastSeq itype e (pre ++ old ++ post) s → Inv (pre ++ old ++ post) s level →
    Pass lastSeq itype seg level s e pre post old new next →
    (next = none → Post (pre ++ new ++ post)) ∧
      ∀ s', next = some s' → Inv (pre ++ new ++ post) s' (level + 1)

/-- What an insertion that returns leaves behind. -/
structure Inserted (Post : List Entry → Prop) (rm rm' : RangeManager) : Prop where
  frame : OnlyRanges rm rm'
  wf : WfEntries rm'.ranges.entries
  sep : Separated rm'.ranges.entries
  post : Post rm'.ranges.entries

theorem insertBody_step {rm : RangeManager} {s level : ℕ} {out : Outcome}
    (hitype : itype ≠ .sojourn) (hkeeps : PassKeeps rm.lastSeq itype seg e Inv Post)
    (hready : Ready rm.lastSeq itype e rm.ranges.entries s) (hinv : Inv rm.ranges.entries s level)
    (h : rm.insertBody s e itype seg level = .ok out) :
    (out.next = none → Inserted Post rm out.rm) ∧
      ∀ s', out.next = some s' → s < s' ∧ s' < e ∧ OnlyRanges rm out.rm ∧
        Ready rm.lastSeq itype e out.rm.ranges.entries s' ∧
        Inv out.rm.ranges.entries s' (level + 1) := by
  have hbytes : itype = .recv → ∀ en ∈ rm.ranges.entries, en.1 = s → en.2.endSeq ≠ s := by
    intro hi en hen hkey
    have := hready.bytes hi en hen (by omega) (hkey ▸ hready.lt)
    omega
  obtain ⟨pre, old, new, post, hold, hframe, hnew, hpass⟩ :=
    insertBody_passes hready.wf hready.sep hready.lt hready.size hitype hbytes h
  have hsorted := out.rm.ranges.sorted
  rw [hnew] at hsorted
  rw [hold] at hready hinv
  have hkept := hkeeps s level pre old new post out.next hready hinv hpass
  constructor
  · intro hnext
    exact ⟨hframe, hnew ▸ hpass.wf hready.lt hready.wf, hnew ▸ hpass.separated hready,
      hnew ▸ hkept.1 hnext⟩
  · intro s' hnext
    obtain ⟨hlo, hhi⟩ := hpass.next_bounds hnext
    exact ⟨hlo, hhi, hframe, hnew ▸ hpass.ready hready hsorted hnext, hnew ▸ hkept.2 s' hnext⟩

/-- The rule for insertions that return: an invariant of the passes gives the postcondition. -/
theorem insertLoop_inserted (hitype : itype ≠ .sojourn) {rm rm' : RangeManager}
    {s level fuel : ℕ} {ret : Bool} (hkeeps : PassKeeps rm.lastSeq itype seg e Inv Post)
    (hready : Ready rm.lastSeq itype e rm.ranges.entries s) (hinv : Inv rm.ranges.entries s level)
    (h : insertLoop e itype seg fuel rm s level = .ok (rm', ret)) : Inserted Post rm rm' := by
  induction fuel generalizing rm s level with
  | zero => cases h
  | succ fuel ih =>
      rw [insertLoop] at h
      split at h
      · cases h
      · next rm₁ ret₁ hbody =>
          obtain ⟨rfl, rfl⟩ := Prod.mk.inj (Except.ok.inj h)
          exact (insertBody_step hitype hkeeps hready hinv hbody).1 rfl
      · next rm₁ s₁ hbody =>
          obtain ⟨-, -, hframe, hready₁, hinv₁⟩ :=
            (insertBody_step hitype hkeeps hready hinv hbody).2 s₁ rfl
          rw [← OnlyRanges.lastSeq hframe] at hkeeps hready₁
          obtain ⟨hframe', hwf', hsep', hpost'⟩ := ih hkeeps hready₁ hinv₁ h
          exact ⟨OnlyRanges.trans hframe hframe', hwf', hsep', hpost'⟩

/-- The rule for insertions that must return. -/
theorem insertLoop_ok (hitype : itype ≠ .sojourn) {rm : RangeManager} {s level fuel : ℕ}
    (hkeeps : PassKeeps rm.lastSeq itype seg e Inv Post)
    (hok : ∀ rm₁ s₁ level₁, OnlyRanges rm rm₁ → Ready rm.lastSeq itype e rm₁.ranges.entries s₁ →
      Inv rm₁.ranges.entries s₁ level₁ → ∃ out, rm₁.insertBody s₁ e itype seg level₁ = .ok out)
    (hready : Ready rm.lastSeq itype e rm.ranges.entries s) (hinv : Inv rm.ranges.entries s level)
    (hfuel : e - s < fuel) :
    ∃ rm' ret, insertLoop e itype seg fuel rm s level = .ok (rm', ret) ∧ Inserted Post rm rm' := by
  induction fuel generalizing rm s level with
  | zero => omega
  | succ fuel ih =>
      obtain ⟨out, hbody⟩ := hok rm s level rfl hready hinv
      have hstep := insertBody_step hitype hkeeps hready hinv hbody
      rw [insertLoop, hbody]
      cases out with
      | done rm₁ ret => exact ⟨rm₁, ret, rfl, hstep.1 rfl⟩
      | again rm₁ s₁ =>
          obtain ⟨hlo, hhi, hframe, hready₁, hinv₁⟩ := hstep.2 s₁ rfl
          have hlast := OnlyRanges.lastSeq hframe
          rw [← hlast] at hkeeps hready₁
          have hok₁ : ∀ rm₂ s₂ level₂, OnlyRanges rm₁ rm₂ →
              Ready rm₁.lastSeq itype e rm₂.ranges.entries s₂ →
              Inv rm₂.ranges.entries s₂ level₂ →
              ∃ out, rm₂.insertBody s₂ e itype seg level₂ = .ok out :=
            fun rm₂ s₂ level₂ h₂ hr₂ => hok rm₂ s₂ level₂ (OnlyRanges.trans hframe h₂) (hlast ▸ hr₂)
          obtain ⟨rm', ret, hloop, hframe', hwf', hsep', hpost'⟩ :=
            ih hkeeps hok₁ hready₁ hinv₁ (by omega)
          exact ⟨rm', ret, hloop, OnlyRanges.trans hframe hframe', hwf', hsep', hpost'⟩

end Loop

/-! ## Packets without payload -/

/-- The range a packet without payload makes where no range starts. -/
def emptyRange (seg : DataSeg) (rdb : Bool) (q : ℕ) : ByteRange :=
  recordSent seg rdb (if seg.noFlags then .pureAck else .pkt)
    { ByteRange.blank q q with
      packetRetransCount := (0 : Counter 8) + seg.retrans.toNat
      rdbCount := (0 : Counter 8) + seg.isRdb.toNat
      syn := if seg.syn then 1 else 0
      fin := if !seg.syn && seg.fin then 1 else 0
      rst := if !seg.syn && !seg.fin && seg.rst then 1 else 0 }

theorem newEmptyRange_eq (seg : DataSeg) (rdb : Bool) (q : ℕ) :
    newEmptyRange seg rdb q = .ok (emptyRange seg rdb q) := by
  unfold newEmptyRange
  rw [ByteRange.new_eq q q le_rfl (by simp), Nat.sub_self]
  rfl

section Empty

variable (itype : InsertType) (seg : DataSeg) (level : ℕ) (rdb : Bool) (q : ℕ) (r : ByteRange)

@[simp] theorem emptyRange_startSeq : (emptyRange seg rdb q).startSeq = q := rfl
@[simp] theorem emptyRange_endSeq : (emptyRange seg rdb q).endSeq = q := rfl
@[simp] theorem emptyRange_byteCount : (emptyRange seg rdb q).byteCount = 0 := rfl

/-- What a packet without payload leaves alone on a range. -/
theorem recordEmpty_blind {α : Type} {f : ByteRange → α}
    (hmarks : ∀ (r : ByteRange) b c, f { r with syn := b, fin := c } = f r)
    (hrst : ∀ (r : ByteRange) c, f { r with rst := c } = f r)
    (hsent : ∀ sentT r, f (recordSent seg rdb sentT r) = f r)
    (hrecv : ∀ (r : ByteRange) t tv b, f (r.increaseReceived t tv b) = f r)
    (hcount : ∀ (r : ByteRange) c, f { r with packetReceivedCount := c } = f r) :
    f (recordEmpty seg itype level rdb r) = f r := by
  unfold recordEmpty
  cases itype with
  | sent =>
      dsimp only
      split_ifs
      · exact (hsent _ _).trans (hmarks r _ _)
      · exact (hsent _ _).trans (hrst r _)
      · exact hsent _ r
  | recv =>
      dsimp only
      split_ifs
      · exact (hcount _ _).trans (hrecv r _ _ _)
      · exact hcount r _
      · exact hrecv r _ _ _
      · rfl
  | sojourn => rfl

@[simp] theorem recordEmpty_startSeq :
    (recordEmpty seg itype level rdb r).startSeq = r.startSeq :=
  recordEmpty_blind itype seg level rdb r (fun _ _ _ => rfl) (fun _ _ => rfl) (fun _ _ => rfl)
    (fun r => increaseReceived_blind r fun _ _ _ _ => rfl) fun _ _ => rfl

@[simp] theorem recordEmpty_endSeq :
    (recordEmpty seg itype level rdb r).endSeq = r.endSeq :=
  recordEmpty_blind itype seg level rdb r (fun _ _ _ => rfl) (fun _ _ => rfl) (fun _ _ => rfl)
    (fun r => increaseReceived_blind r fun _ _ _ _ => rfl) fun _ _ => rfl

@[simp] theorem recordEmpty_byteCount :
    (recordEmpty seg itype level rdb r).byteCount = r.byteCount :=
  recordEmpty_blind itype seg level rdb r (fun _ _ _ => rfl) (fun _ _ => rfl) (fun _ _ => rfl)
    (fun r => increaseReceived_blind r fun _ _ _ _ => rfl) fun _ _ => rfl

end Empty

/-- What a packet without payload does to the entries: a new range at `q`, or a mark on the one
that starts there. -/
inductive EmptyPass (seg : DataSeg) (rdb : Bool) (q : ℕ) : List Entry → List Entry → Prop
  | fresh {pre post : List Entry} (hpre : ∀ en ∈ pre, en.1 < q) (hpost : ∀ en ∈ post, q < en.1) :
      EmptyPass seg rdb q (pre ++ post) (pre ++ (q, emptyRange seg rdb q) :: post)
  | found {pre post : List Entry} (r : ByteRange) :
      EmptyPass seg rdb q (pre ++ (q, r) :: post)
        (pre ++ (q, recordEmpty seg .sent 0 rdb r) :: post)

theorem insertByteRange_empty (rm : RangeManager) (s : ℕ) (seg : DataSeg) :
    ∃ rm', rm.insertByteRange s s .sent seg 0 = .ok (rm', true) ∧
      rm' = { rm with
        ranges := rm'.ranges, analysedSentPureAckCount := rm.analysedSentPureAckCount + 1 } ∧
      EmptyPass seg (thisIsRdbData seg s) (rm.emptySeq seg s) rm.ranges.entries
        rm'.ranges.entries := by
  unfold insertByteRange
  rw [insertLoop]
  unfold insertBody insertEmpty
  rw [if_pos rfl]
  dsimp only
  cases hfind : rm.ranges.find? (rm.emptySeq seg s) with
  | none =>
      rw [newEmptyRange_eq]
      refine ⟨_, rfl, rfl, ?_⟩
      have hins := OrdMap.entries_insert_of_find?_eq_none hfind
        (emptyRange seg (thisIsRdbData seg s) (rm.emptySeq seg s))
      rw [← rm.ranges.below_append_atLeast (rm.emptySeq seg s)]
      exact hins ▸ .fresh (fun en hen => OrdMap.lt_of_mem_below hen)
        (OrdMap.lt_of_mem_atLeast hfind)
  | some r =>
      refine ⟨_, rfl, rfl, ?_⟩
      obtain ⟨pre, post, hcut⟩ := OrdMap.exists_cut_of_find? hfind
      have hmod := OrdMap.entries_modify_of_cut hcut
        (recordEmpty seg .sent 0 (thisIsRdbData seg s))
      rw [hcut]
      exact hmod ▸ .found r

/-! ## `insertSentRange` -/

/-- `lastSeq` after a packet. -/
def newLastSeq (sd : SendData) (lastSeq : ℕ) : ℕ :=
  if sd.data.payloadSize = 0 then
    if sd.data.rst then lastSeq else sd.data.endSeq + sd.data.syn.toNat
  else if sd.data.seq = lastSeq then sd.data.seq + sd.data.payloadSize
  else if lastSeq < sd.data.seq then lastSeq
  else if sd.data.endSeq ≤ lastSeq then lastSeq
  else sd.data.seq + sd.data.payloadSize

theorem insertSentRange_of_ok {rm rm₁ : RangeManager} {sd : SendData} {ret : Bool}
    (h : rm.insertByteRange sd.data.seq sd.data.endSeq .sent sd.data 0 = .ok (rm₁, ret)) :
    rm.insertSentRange sd = .ok { rm₁ with lastSeq := newLastSeq sd rm₁.lastSeq } := by
  unfold insertSentRange newLastSeq
  dsimp only
  rw [h, Run.ok_bind]
  dsimp only
  split_ifs <;> rfl

theorem insertSentRange_cases {rm rm' : RangeManager} {sd : SendData}
    (h : rm.insertSentRange sd = .ok rm') :
    ∃ rm₁ ret, rm.insertByteRange sd.data.seq sd.data.endSeq .sent sd.data 0 = .ok (rm₁, ret) ∧
      rm' = { rm₁ with lastSeq := newLastSeq sd rm₁.lastSeq } := by
  obtain ⟨⟨rm₁, ret⟩, hins, -⟩ := Run.exists_of_bind_ok h
  exact ⟨rm₁, ret, hins, Except.ok.inj (h.symm.trans (insertSentRange_of_ok hins))⟩

/-- A packet without payload always goes in. -/
theorem insertSentRange_empty (rm : RangeManager) {sd : SendData}
    (hend : sd.data.endSeq = sd.data.seq) :
    ∃ rm', rm.insertSentRange sd = .ok rm' ∧ rm'.lastSeq = newLastSeq sd rm.lastSeq ∧
      EmptyPass sd.data (thisIsRdbData sd.data sd.data.seq) (rm.emptySeq sd.data sd.data.seq)
        rm.ranges.entries rm'.ranges.entries := by
  obtain ⟨rm₁, h₁, hframe, hpass⟩ := insertByteRange_empty rm sd.data.seq sd.data
  have h₁' : rm.insertByteRange sd.data.seq sd.data.endSeq .sent sd.data 0 = .ok (rm₁, true) := by
    rw [hend]
    exact h₁
  have hlast : rm₁.lastSeq = rm.lastSeq := by rw [hframe]
  exact ⟨_, insertSentRange_of_ok h₁', by rw [hlast], hpass⟩

end RangeManager

end AnalyseTCP
