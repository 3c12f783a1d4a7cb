import AnalyseTCP.InsertLoop
import AnalyseTCP.Lib.IntervalMass
import Mathlib.Tactic.Ring

/-!
# Per-byte counts

How a pass changes the number of times each byte is counted, which bytes are held at all, and how
many ranges the rest of the segment still overlaps.
-/

namespace AnalyseTCP

namespace RangeManager

/-- The count `cnt` of every range, weighted with the bytes of the range. -/
def mass (w : IntervalWeight) (cnt : ByteRange → ℕ) (l : List Entry) : ℕ :=
  intervalMass w (fun en => en.2.startSeq) (fun en => en.2.endSeq) (fun en => cnt en.2) l

@[simp] theorem mass_nil (w : IntervalWeight) (cnt : ByteRange → ℕ) : mass w cnt [] = 0 := rfl

@[simp] theorem mass_cons (w : IntervalWeight) (cnt : ByteRange → ℕ) (en : Entry)
    (l : List Entry) :
    mass w cnt (en :: l) = cnt en.2 * w en.2.startSeq en.2.endSeq + mass w cnt l :=
  intervalMass_cons ..

@[simp] theorem mass_append (w : IntervalWeight) (cnt : ByteRange → ℕ) (l₁ l₂ : List Entry) :
    mass w cnt (l₁ ++ l₂) = mass w cnt l₁ + mass w cnt l₂ :=
  intervalMass_append ..

/-- Some range contains `x`. -/
def Covered (l : List Entry) (x : ℕ) : Prop := ∃ en ∈ l, en.2.Holds x

theorem covered_nil (x : ℕ) : ¬Covered [] x := fun ⟨_, h, _⟩ => nomatch h

theorem covered_cons {en : Entry} {l : List Entry} {x : ℕ} :
    Covered (en :: l) x ↔ en.2.Holds x ∨ Covered l x := by
  simp [Covered]

theorem covered_append {l₁ l₂ : List Entry} {x : ℕ} :
    Covered (l₁ ++ l₂) x ↔ Covered l₁ x ∨ Covered l₂ x := by
  simp [Covered, or_and_right, exists_or]

/-- How many ranges have bytes in `[s, e)`. -/
def overlaps (l : List Entry) (s e : ℕ) : ℕ :=
  l.countP fun en => decide (max en.2.startSeq s < min en.2.endSeq e)

/-- A counter that a split copies to both pieces and that recording `seg` raises by `k`. -/
structure CountsBytes (cnt : ByteRange → ℕ) (itype : InsertType) (seg : DataSeg) (k : ℕ) :
    Prop where
  head : ∀ r c, cnt (r.head c) = cnt r
  tail : ∀ r c, cnt (r.tail c) = cnt r
  finSet : ∀ r, cnt (finSet seg r) = cnt r
  recordSplit : ∀ level rdb r, cnt (recordSplit seg level rdb itype r) = cnt r + k
  recordFound : ∀ level rdb r, cnt (recordFound seg level rdb itype r) = cnt r + k
  wholeRange : ∀ level s r, cnt (wholeRange itype seg level s r) = cnt r + k
  freshRange : itype = .sent → ∀ s e, cnt (freshRange seg s e) = k
  reusedRange : itype = .sent → ∀ s c r, cnt (reusedRange seg s c r) = cnt r + k

section Pass

variable {lastSeq : ℕ} {itype : InsertType} {seg : DataSeg} {level s e k : ℕ}
  {pre post old new : List Entry} {next : Option ℕ} {cnt : ByteRange → ℕ}

theorem getD_reuse {c : ℕ} (hle : c ≤ e) : (if c < e then some c else none).getD e = c := by
  split
  · rfl
  · exact le_antisymm (by simp; omega) hle

/-- A pass counts the bytes it handles once more, and no others. -/
theorem Pass.mass_eq (hpass : Pass lastSeq itype seg level s e pre post old new next)
    (hcnt : CountsBytes cnt itype seg k) (hwf : WfEntries old) (hlt : s < e)
    (hempty : ∀ en ∈ old, en.2.endSeq = en.2.startSeq → cnt en.2 = 0)
    (hmissing : new = [] → k = 0) (w : IntervalWeight) :
    mass w cnt (pre ++ new ++ post) =
      mass w cnt (pre ++ old ++ post) + k * w s (next.getD e) := by
  suffices mass w cnt new = mass w cnt old + k * w s (next.getD e) by
    simp only [mass_append, this]
    omega
  -- the pieces of a cut share the weight of the old range; only the handled one counts `k` more
  cases hpass with
  | missing => simp [hmissing rfl]
  | fresh hitype => simp [hcnt.freshRange hitype]
  | whole r hend =>
      have hr : s = r.startSeq := (hwf (s, r) (by simp)).1
      simp [hcnt.wholeRange, ← hr, hend, add_mul]
  | span r hbytes hend =>
      have hr : s = r.startSeq := (hwf (s, r) (by simp)).1
      simp [hcnt.recordFound, ← hr, add_mul]
  | reuse r c hitype hzero hlo hhi =>
      have hr : s = r.startSeq := (hwf (s, r) (by simp)).1
      -- the reused range had no bytes, so nothing was counted in it
      have hcnt0 : cnt r = 0 := hempty (s, r) (by simp) (hzero.trans hr)
      rw [getD_reuse hhi]
      simp [hcnt.reusedRange hitype, ← hr, hcnt0]
  | front r hend =>
      have hr : s = r.startSeq := (hwf (s, r) (by simp)).1
      have hcut := w.weight_add hlt.le hend.le
      simp only [mass_cons, mass_nil, hcnt.recordFound, hcnt.head, hcnt.tail, recordFound_startSeq,
        recordFound_endSeq, ByteRange.head_startSeq, ByteRange.head_endSeq,
        ByteRange.tail_startSeq, ByteRange.tail_endSeq, Option.getD_none, ← hr, ← hcut]
      ring
  | back key r hkey hlo hend =>
      have hr : key = r.startSeq := (hwf (key, r) (by simp)).1
      have hcut := w.weight_add hkey.le hlo.le
      simp only [mass_cons, mass_nil, hcnt.recordSplit, hcnt.finSet, hcnt.head, hcnt.tail,
        recordSplit_startSeq, recordSplit_endSeq, finSet_startSeq, finSet_endSeq,
        ByteRange.head_startSeq, ByteRange.head_endSeq, ByteRange.tail_startSeq,
        ByteRange.tail_endSeq, Option.getD_none, ← hr, ← hcut, ← hend]
      ring
  | beyond key r hkey hlo hend =>
      have hr : key = r.startSeq := (hwf (key, r) (by simp)).1
      have hcut := w.weight_add hkey.le hlo.le
      simp only [mass_cons, mass_nil, hcnt.recordSplit, hcnt.head, hcnt.tail,
        recordSplit_startSeq, recordSplit_endSeq, ByteRange.head_startSeq, ByteRange.head_endSeq,
        ByteRange.tail_startSeq, ByteRange.tail_endSeq, Option.getD_some, ← hr, ← hcut]
      ring
  | middle key r hkey hend =>
      have hr : key = r.startSeq := (hwf (key, r) (by simp)).1
      have hcut := w.weight_add hkey.le (hlt.trans hend).le
      have hcut' := w.weight_add hlt.le hend.le
      simp only [mass_cons, mass_nil, hcnt.recordSplit, hcnt.finSet, hcnt.head, hcnt.tail,
        recordSplit_startSeq, recordSplit_endSeq, finSet_startSeq, finSet_endSeq,
        ByteRange.head_startSeq, ByteRange.head_endSeq, ByteRange.tail_startSeq,
        ByteRange.tail_endSeq, Option.getD_none, ← hr, ← hcut, ← hcut']
      ring

/-- A pass over sent data leaves the bytes it handles held, and all others as they were. -/
theorem Pass.covered_iff (hpass : Pass lastSeq itype seg level s e pre post old new next)
    (hwf : WfEntries old) (hlt : s < e) (hnew : new ≠ []) {x : ℕ} :
    Covered (pre ++ new ++ post) x ↔
      Covered (pre ++ old ++ post) x ∨ (s ≤ x ∧ x < next.getD e) := by
  suffices Covered new x ↔ Covered old x ∨ (s ≤ x ∧ x < next.getD e) by
    simp only [covered_append, this]
    tauto
  -- a cut covers what the old range did; only `fresh` and `reuse` cover new bytes
  cases hpass with
  | missing => exact absurd rfl hnew
  | fresh => simp [covered_cons, covered_nil, ByteRange.Holds]
  | whole r hend =>
      have hr : s = r.startSeq := (hwf (s, r) (by simp)).1
      simp [covered_cons, covered_nil, ByteRange.Holds]
      omega
  | span r hbytes hend =>
      have hr : s = r.startSeq := (hwf (s, r) (by simp)).1
      simp [covered_cons, covered_nil, ByteRange.Holds]
      omega
  | reuse r c hitype hzero hlo hhi =>
      have hr : s = r.startSeq := (hwf (s, r) (by simp)).1
      rw [getD_reuse hhi]
      simp [covered_cons, covered_nil, ByteRange.Holds]
      omega
  | front r hend =>
      have hr : s = r.startSeq := (hwf (s, r) (by simp)).1
      simp [covered_cons, covered_nil, ByteRange.Holds]
      omega
  | back key r hkey hlo hend =>
      have hr : key = r.startSeq := (hwf (key, r) (by simp)).1
      simp [covered_cons, covered_nil, ByteRange.Holds]
      omega
  | beyond key r hkey hlo hend =>
      have hr : key = r.startSeq := (hwf (key, r) (by simp)).1
      simp [covered_cons, covered_nil, ByteRange.Holds]
      omega
  | middle key r hkey hend =>
      have hr : key = r.startSeq := (hwf (key, r) (by simp)).1
      simp [covered_cons, covered_nil, ByteRange.Holds]
      omega

theorem Pass.new_bytes (hpass : Pass lastSeq itype seg level s e pre post old new next)
    (hwf : WfEntries old) (hlt : s < e) : ∀ en ∈ new, en.2.startSeq < en.2.endSeq := by
  cases hpass with
  | missing => simp
  | fresh => simpa using hlt
  | whole r hend | span r hbytes hend | reuse r c hitype hzero hlo =>
      have hr : s = r.startSeq := (hwf (s, r) (by simp)).1
      simp
      omega
  | front r hend =>
      have hr : s = r.startSeq := (hwf (s, r) (by simp)).1
      simp
      omega
  | back key r hkey hlo hend | beyond key r hkey hlo hend =>
      have hr : key = r.startSeq := (hwf (key, r) (by simp)).1
      simp
      omega
  | middle key r hkey hend =>
      have hr : key = r.startSeq := (hwf (key, r) (by simp)).1
      simp
      omega

theorem Pass.old_empty (hpass : Pass lastSeq itype seg level s e pre post old new next)
    (hwf : WfEntries old) (hlt : s < e) {en : Entry} (hen : en ∈ old)
    (hempty : en.2.endSeq = en.2.startSeq) : en.1 = s := by
  have hkey := (hwf en hen).1
  cases hpass with
  | fresh | missing => cases hen
  | whole | front | span | reuse => rw [List.mem_singleton.mp hen]
  | back key r hkey' hlo | beyond key r hkey' hlo =>
      obtain rfl := List.mem_singleton.mp hen
      simp only at *
      omega
  | middle key r hkey' hend =>
      obtain rfl := List.mem_singleton.mp hen
      simp only at *
      omega

theorem Pass.new_key_le (hpass : Pass lastSeq itype seg level s e pre post old new next)
    (hlt : s < e) : ∀ en ∈ new, en.1 ≤ e := by
  cases hpass with
  | missing => simp
  | fresh | whole | span | reuse => simpa using hlt.le
  | front => simpa using hlt.le
  | back key r hkey | beyond key r hkey =>
      simp
      omega
  | middle key r hkey =>
      simp
      omega

/-- A continued pass has one range less to go. -/
theorem Continues.overlaps_lt {s' : ℕ} (hcont : Continues pre old new post s s') (hs : s < s')
    (hover : ∃ en ∈ old, max en.2.startSeq s < min en.2.endSeq e) :
    overlaps (pre ++ new ++ post) s' e < overlaps (pre ++ old ++ post) s e := by
  have hpre : overlaps pre s' e ≤ overlaps pre s e :=
    List.countP_mono_left fun en _ => by simp; omega
  have hpost : overlaps post s' e ≤ overlaps post s e :=
    List.countP_mono_left fun en _ => by simp; omega
  have hnew : overlaps new s' e = 0 := by
    refine List.countP_eq_zero.mpr fun en hen => ?_
    have := hcont.new_le en hen
    simp
    omega
  have hold : 0 < overlaps old s e := by
    obtain ⟨en, hen, hlt⟩ := hover
    exact List.countP_pos_iff.mpr ⟨en, hen, by simpa using hlt⟩
  simp only [overlaps, List.countP_append] at *
  omega

theorem Pass.overlaps_lt (hpass : Pass lastSeq itype seg level s e pre post old new next)
    (hready : Ready lastSeq itype e (pre ++ old ++ post) s)
    (hbytes : ∀ en ∈ old, en.2.startSeq < en.2.endSeq) {s' : ℕ} (hnext : next = some s') :
    overlaps (pre ++ new ++ post) s' e < overlaps (pre ++ old ++ post) s e := by
  have hcont := hpass.continues hready.wf hready.sep hnext
  have hbounds := hpass.next_bounds hnext
  have hwf := (wfEntries_append.mp (wfEntries_append.mp hready.wf).1).2
  refine hcont.overlaps_lt hbounds.1 ?_
  cases hpass with
  | fresh | missing | whole | front | back | middle => cases hnext
  | span r hlo hend =>
      have hr : s = r.startSeq := (hwf (s, r) (by simp)).1
      exact ⟨(s, r), by simp, by simp; omega⟩
  | beyond key r hkey hlo hend =>
      have hr : key = r.startSeq := (hwf (key, r) (by simp)).1
      exact ⟨(key, r), by simp, by simp; omega⟩
  | reuse r c hitype hzero =>
      have hr : s = r.startSeq := (hwf (s, r) (by simp)).1
      have hlt : r.startSeq < r.endSeq := hbytes (s, r) (by simp)
      omega

end Pass

end RangeManager

end AnalyseTCP
