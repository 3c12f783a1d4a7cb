import AnalyseTCP.Refinement
import Mathlib.Algebra.Group.Prod
import Mathlib.Tactic.Abel

/-!
# What one data packet adds to a sum over the ranges

Flags and packets are counted in every branch of `insertByteRange` by a rule of its own.  A measure
of ranges is charged by fixed amounts: for the range that the data starts with, for the part that
is split off where it starts inside a range, for every zero-length range that it takes over, and
for the range in which its last pass ends or which that pass makes.  The passes over one packet are
followed once here, for every measure; what is counted is read off the amounts.
-/

namespace AnalyseTCP

namespace RangeManager

/-! ## Measures of ranges -/

/-- What one packet adds to a measure, by the branch that a pass takes. -/
structure Charges (α : Type) where
  /-- a range that the first pass starts with -/
  found : α
  /-- a range that ends with the data, besides `found` -/
  whole : α
  /-- a range without bytes that the data takes over -/
  reuse : α
  /-- a new range -/
  fresh : α
  /-- a part split off for data that ends in the same range -/
  split : α
  /-- a part split off for data that reaches past the range -/
  beyond : α

/-- The measure `f` is charged for `seg` as `ch` says. -/
structure ChargedBy {α : Type} [AddCommMonoid α] (seg : DataSeg) (f : ByteRange → α)
    (ch : Charges α) : Prop where
  head : ∀ (r : ByteRange) c, f (r.head c) = f r
  tail : ∀ (r : ByteRange) c, f (r.tail c) = 0
  found : ∀ level rdb r,
    f (recordFound seg level rdb .sent r) = f r + if level = 0 then ch.found else 0
  whole : ∀ level s r, f (wholeRange .sent seg level s r) =
    f r + ((if level = 0 then ch.found else 0) + ch.whole)
  reuse : ∀ s c r, f (reusedRange seg s c r) = f r + ch.reuse
  fresh : ∀ s e, f (freshRange seg s e) = ch.fresh
  split : ∀ rdb r, f r = 0 → f (recordSplit seg 0 rdb .sent (finSet seg r)) = ch.split
  beyond : ∀ rdb r, f r = 0 → f (recordSplit seg 0 rdb .sent r) = ch.beyond

section Sum

variable {α : Type} [AddCommMonoid α] (f : ByteRange → α)

def chargeSum (l : List Entry) : α := (l.map fun en => f en.2).sum

theorem chargeSum_nil : chargeSum f [] = 0 := rfl

theorem chargeSum_cons (en : Entry) (l : List Entry) :
    chargeSum f (en :: l) = f en.2 + chargeSum f l := by
  unfold chargeSum
  rw [List.map_cons, List.sum_cons]

theorem chargeSum_append (l l' : List Entry) :
    chargeSum f (l ++ l') = chargeSum f l + chargeSum f l' := by
  unfold chargeSum
  rw [List.map_append, List.sum_append]

end Sum

/-! ## The way of the passes -/

/-- The range in which the last pass over data up to `e` starts that goes on at `s`, if that pass
does not make a new one. -/
def lastRange (e : ℕ) : List Entry → ℕ → Option ByteRange
  | [], _ => none
  | (key, r) :: l, s =>
      if key = s then
        if r.endSeq = s then
          -- a range without bytes takes the data up to the next range
          match l.head? with
          | none => some r
          | some en => if en.1 < e then lastRange e l en.1 else some r
        else if r.endSeq < e then lastRange e l r.endSeq
        else some r
      else lastRange e l s

/-- How many ranges without bytes data up to `e` takes over that goes on at `s`. -/
def reusedCount (e : ℕ) : List Entry → ℕ → ℕ
  | [], _ => 0
  | (key, r) :: l, s =>
      if key = s then
        if r.endSeq = s then
          match l.head? with
          | none => 1
          | some en => 1 + if en.1 < e then reusedCount e l en.1 else 0
        else if r.endSeq < e then reusedCount e l r.endSeq
        else 0
      else reusedCount e l s

/-- The range strictly around `s` that a pass at `s` finds; from `lastSeq` on it looks for none. -/
def aroundRange (lastSeq : ℕ) (l : List Entry) (s : ℕ) : Option ByteRange :=
  (l.find? fun en => decide (en.1 < s) && decide (s < en.2.endSeq) && decide (s < lastSeq)).map
    Prod.snd

/-- The range in which the last pass over the data from `s` to `e` starts, if that pass does not
make a new one. -/
def finalRange (lastSeq e : ℕ) (l : List Entry) (s : ℕ) : Option ByteRange :=
  match aroundRange lastSeq l s with
  | some r => if r.endSeq < e then lastRange e l r.endSeq else none
  | none => lastRange e l s

/-- A range with bytes starts at `s`. -/
def StartsRange (l : List Entry) (s : ℕ) : Prop := ∃ en ∈ l, en.1 = s ∧ en.2.endSeq ≠ s

instance (l : List Entry) (s : ℕ) : Decidable (StartsRange l s) :=
  inferInstanceAs (Decidable (∃ en ∈ l, _))

/-- The entries before a range that data starts with have smaller keys, those behind larger ones. -/
theorem ne_of_mem_pre {pre post : List Entry} {key : ℕ} {r : ByteRange}
    (hsorted : (pre ++ [(key, r)] ++ post).Pairwise fun a b => a.1 < b.1) :
    (∀ en ∈ pre, en.1 < key) ∧ ∀ en ∈ post, key < en.1 := by
  rw [List.append_assoc] at hsorted
  obtain ⟨-, hrest, hcross⟩ := List.pairwise_append.mp hsorted
  refine ⟨fun en hen => hcross en hen (key, r) (by simp), fun en hen => ?_⟩
  exact (List.pairwise_cons.mp hrest).1 en hen

/-! ## Charges of the later passes -/

section Rest

variable {α : Type} [AddCommMonoid α] (ch : Charges α)

/-- The charge for what is left from `s` to `e`. -/
def restCharge (e : ℕ) : List Entry → ℕ → α
  | [], _ => ch.fresh
  | (key, r) :: l, s =>
      if key = s then
        if r.endSeq = s then
          match l.head? with
          | none => ch.reuse
          | some en => ch.reuse + if en.1 < e then restCharge e l en.1 else 0
        else if r.endSeq < e then restCharge e l r.endSeq
        else if r.endSeq = e then ch.whole else 0
      else restCharge e l s

/-- The charge for the range in which the last pass starts, or for the one it makes. -/
def lastCharge (e : ℕ) : Option ByteRange → α
  | none => ch.fresh
  | some r => if r.endSeq = e then ch.whole else 0

theorem restCharge_eq {l : List Entry} {s e : ℕ} (hlt : s < e) :
    restCharge ch e l s = reusedCount e l s • ch.reuse + lastCharge ch e (lastRange e l s) := by
  -- along the entries, as the recursion goes; what lies before the range at `s` is passed over
  induction l generalizing s with
  | nil =>
      show ch.fresh = 0 • ch.reuse + ch.fresh
      rw [zero_nsmul, zero_add]
  | cons en l ih =>
      obtain ⟨key, r⟩ := en
      rw [restCharge, reusedCount, lastRange]
      by_cases hkey : key = s
      · rw [if_pos hkey, if_pos hkey, if_pos hkey]
        by_cases hempty : r.endSeq = s
        · have hne : r.endSeq ≠ e := by omega
          have hlast : lastCharge ch e (some r) = 0 := if_neg hne
          rw [if_pos hempty, if_pos hempty, if_pos hempty]
          cases l.head? with
          | none =>
              show ch.reuse = 1 • ch.reuse + lastCharge ch e (some r)
              rw [hlast, one_nsmul, add_zero]
          | some en =>
              dsimp only
              by_cases hgo : en.1 < e
              · rw [if_pos hgo, if_pos hgo, if_pos hgo, ih hgo, add_nsmul, one_nsmul, add_assoc]
              · rw [if_neg hgo, if_neg hgo, if_neg hgo, hlast, add_zero, add_zero, add_zero, one_nsmul]
        · rw [if_neg hempty, if_neg hempty, if_neg hempty]
          by_cases hgo : r.endSeq < e
          · rw [if_pos hgo, if_pos hgo, if_pos hgo]
            exact ih hgo
          · rw [if_neg hgo, if_neg hgo, if_neg hgo, zero_nsmul, zero_add]
            rfl
      · rw [if_neg hkey, if_neg hkey, if_neg hkey]
        exact ih hlt

theorem restCharge_append {pre l : List Entry} {e s : ℕ} (hpre : ∀ en ∈ pre, en.1 ≠ s) :
    restCharge ch e (pre ++ l) s = restCharge ch e l s := by
  induction pre with
  | nil => rfl
  | cons en pre ih =>
      obtain ⟨hkey, hrest⟩ := List.forall_mem_cons.mp hpre
      obtain ⟨key, r⟩ := en
      rw [List.cons_append, restCharge, if_neg hkey]
      exact ih hrest

theorem restCharge_of_free {l : List Entry} {e s : ℕ} (h : ∀ en ∈ l, en.1 ≠ s) :
    restCharge ch e l s = ch.fresh := by
  have hnil : restCharge ch e (l ++ []) s = restCharge ch e [] s := restCharge_append ch h
  rw [List.append_nil] at hnil
  exact hnil

variable {s e : ℕ} {pre post : List Entry} {r : ByteRange}

theorem restCharge_span (hsorted : (pre ++ [(s, r)] ++ post).Pairwise fun a b => a.1 < b.1)
    (hbytes : s < r.endSeq) (hend : r.endSeq < e) :
    restCharge ch e (pre ++ [(s, r)] ++ post) s = restCharge ch e post r.endSeq := by
  obtain ⟨hpre, -⟩ := ne_of_mem_pre hsorted
  rw [List.append_assoc, restCharge_append ch fun en hen => (hpre en hen).ne]
  show restCharge ch e ((s, r) :: post) s = _
  rw [restCharge, if_pos rfl, if_neg hbytes.ne', if_pos hend]

theorem restCharge_within (hsorted : (pre ++ [(s, r)] ++ post).Pairwise fun a b => a.1 < b.1)
    (hlt : s < e) (hend : e ≤ r.endSeq) :
    restCharge ch e (pre ++ [(s, r)] ++ post) s = if r.endSeq = e then ch.whole else 0 := by
  obtain ⟨hpre, -⟩ := ne_of_mem_pre hsorted
  have hbytes : r.endSeq ≠ s := by omega
  rw [List.append_assoc, restCharge_append ch fun en hen => (hpre en hen).ne]
  show restCharge ch e ((s, r) :: post) s = _
  rw [restCharge, if_pos rfl, if_neg hbytes, if_neg hend.not_gt]

theorem restCharge_reuse {c : ℕ}
    (hsorted : (pre ++ [(s, r)] ++ post).Pairwise fun a b => a.1 < b.1) (hempty : r.endSeq = s)
    (hpost : ∀ en ∈ post, c ≤ en.1) (hnext : c < e → ∃ en ∈ post, en.1 = c) (hhi : c ≤ e) :
    restCharge ch e (pre ++ [(s, r)] ++ post) s =
      ch.reuse + if c < e then restCharge ch e post c else 0 := by
  obtain ⟨hpre, -⟩ := ne_of_mem_pre hsorted
  rw [List.append_assoc, restCharge_append ch fun en hen => (hpre en hen).ne]
  show restCharge ch e ((s, r) :: post) s = _
  rw [restCharge, if_pos rfl, if_pos hempty]
  cases post with
  | nil =>
      have hnot : ¬c < e := fun hlt => by
        obtain ⟨en, hen, -⟩ := hnext hlt
        cases hen
      rw [if_neg hnot, add_zero]
      rfl
  | cons en post =>
      have hlow := hpost en List.mem_cons_self
      show ch.reuse + (if en.1 < e then restCharge ch e (en :: post) en.1 else 0) = _
      by_cases hlt : c < e
      · -- the next range is the first one that is left
        have hkey : en.1 = c := by
          obtain ⟨d, hd, hdc⟩ := hnext hlt
          rcases List.mem_cons.mp hd with rfl | hd
          · exact hdc
          · rw [List.append_assoc] at hsorted
            have hrest := (List.pairwise_append.mp hsorted).2.1
            have hlater := (List.pairwise_cons.mp (List.pairwise_cons.mp hrest).2).1 d hd
            omega
        rw [hkey]
      · rw [if_neg hlt, if_neg (by omega)]

end Rest

/-! ## Charges of the first pass -/

section Start

variable {α : Type} [AddCommMonoid α] (ch : Charges α)

/-- The charge for the range that the data starts with. -/
def startCharge (level : ℕ) (l : List Entry) (s : ℕ) : α :=
  if level = 0 ∧ StartsRange l s then ch.found else 0

theorem startCharge_succ (level : ℕ) (l : List Entry) (s : ℕ) :
    startCharge ch (level + 1) l s = 0 :=
  if_neg fun h => absurd h.1 (Nat.succ_ne_zero level)

theorem startCharge_of_mem (level : ℕ) {l : List Entry} {s : ℕ} {r : ByteRange}
    (hmem : (s, r) ∈ l) (hbytes : r.endSeq ≠ s) :
    startCharge ch level l s = if level = 0 then ch.found else 0 := by
  have hiff : (level = 0 ∧ StartsRange l s) ↔ level = 0 :=
    and_iff_left ⟨(s, r), hmem, rfl, hbytes⟩
  exact if_congr hiff rfl rfl

theorem startCharge_of_empty (level : ℕ) {l : List Entry} {s : ℕ}
    (h : ∀ en ∈ l, en.1 = s → en.2.endSeq = s) : startCharge ch level l s = 0 := by
  apply if_neg
  rintro ⟨-, en, hen, hkey, hend⟩
  exact hend (h en hen hkey)

/-- What the data from `s` to `e` is charged. -/
def dataCharge (lastSeq e : ℕ) (l : List Entry) (s : ℕ) : α :=
  match aroundRange lastSeq l s with
  | some r => if r.endSeq < e then ch.beyond + restCharge ch e l r.endSeq else ch.split
  | none => startCharge ch 0 l s + restCharge ch e l s

variable {lastSeq e s : ℕ} {l : List Entry}

theorem dataCharge_of_around {r : ByteRange} (h : aroundRange lastSeq l s = some r) :
    dataCharge ch lastSeq e l s = if r.endSeq < e then
      ch.beyond + (reusedCount e l r.endSeq • ch.reuse + lastCharge ch e (lastRange e l r.endSeq))
      else ch.split := by
  unfold dataCharge
  rw [h]
  dsimp only
  split_ifs with hgo
  · rw [restCharge_eq ch hgo]
  · rfl

theorem dataCharge_of_clear (h : aroundRange lastSeq l s = none) (hlt : s < e) :
    dataCharge ch lastSeq e l s = startCharge ch 0 l s +
      (reusedCount e l s • ch.reuse + lastCharge ch e (lastRange e l s)) := by
  unfold dataCharge
  rw [h]
  dsimp only
  rw [restCharge_eq ch hlt]

end Start

/-! ## One pass -/

section Pass

variable {α : Type} [AddCommMonoid α] {f : ByteRange → α} {ch : Charges α}
variable {lastSeq level s e : ℕ} {seg : DataSeg} {pre post old new : List Entry} {next : Option ℕ}

/-- A pass that starts inside no range charges what is left, or leaves it to the next one. -/
theorem Pass.charges (hch : ChargedBy seg f ch)
    (hpass : Pass lastSeq .sent seg level s e pre post old new next) (hlt : s < e)
    (hsorted : (pre ++ old ++ post).Pairwise fun a b => a.1 < b.1)
    (hwf : WfEntries (pre ++ old ++ post)) (hsep : Separated (pre ++ old ++ post))
    (hroom : ∀ en ∈ pre ++ old ++ post, en.1 < s → en.2.endSeq ≤ s) :
    (next = none → chargeSum f (pre ++ new ++ post) = chargeSum f (pre ++ old ++ post) +
      (startCharge ch level (pre ++ old ++ post) s + restCharge ch e (pre ++ old ++ post) s)) ∧
    ∀ s', next = some s' → old ≠ [] ∧
      chargeSum f (pre ++ new ++ post) + restCharge ch e (pre ++ new ++ post) s' =
        chargeSum f (pre ++ old ++ post) +
          (startCharge ch level (pre ++ old ++ post) s + restCharge ch e (pre ++ old ++ post) s) ∧
      ∀ en ∈ pre ++ new ++ post, en.1 < s' → en.2.endSeq ≤ s' := by
  -- a range that takes part of the data and leaves the rest to the next pass
  have hgoes : ∀ r r' s', old = [(s, r)] → s < s' → r'.endSeq = s' →
      (∀ en ∈ post, s' ≤ en.2.startSeq) → (∀ en ∈ pre ++ [(s, r')] ++ post, en.1 < s' →
        en.2.endSeq ≤ s') ∧
        restCharge ch e (pre ++ [(s, r')] ++ post) s' = restCharge ch e post s' := by
    rintro r r' s' rfl hlo hend hpost
    obtain ⟨hpre, hlater⟩ := ne_of_mem_pre hsorted
    constructor
    · intro en hen hkey
      rcases List.mem_append.mp hen with hen | hen
      · rcases List.mem_append.mp hen with hen | hen
        · have hends := hroom en (by simp [hen]) (hpre en hen)
          omega
        · obtain rfl := List.mem_singleton.mp hen
          exact hend.le
      · have hstart := hpost en hen
        have hkey' : en.1 = en.2.startSeq := (hwf en (by simp [hen])).1
        omega
    · apply restCharge_append
      intro en hen
      rcases List.mem_append.mp hen with hen | hen
      · have := hpre en hen
        omega
      · obtain rfl := List.mem_singleton.mp hen
        exact hlo.ne
  cases hpass with
  | fresh _ hpre hpost _ _ =>
      refine ⟨fun _ => ?_, fun s' hs' => (nomatch hs')⟩
      have hfree : ∀ en ∈ pre ++ [] ++ post, en.1 ≠ s := by
        intro en hen
        rw [List.append_nil] at hen
        rcases List.mem_append.mp hen with hen | hen
        · exact (hpre en hen).ne
        · exact (hpost en hen).ne'
      rw [restCharge_of_free ch hfree,
        startCharge_of_empty ch level fun en hen hkey => absurd hkey (hfree en hen)]
      simp only [chargeSum_append, chargeSum_cons, chargeSum_nil, hch.fresh]
      abel
  | missing hitype => cases hitype
  | whole r hend =>
      refine ⟨fun _ => ?_, fun s' hs' => (nomatch hs')⟩
      rw [restCharge_within ch hsorted hlt hend.ge, if_pos hend,
        startCharge_of_mem ch level (by simp) (show r.endSeq ≠ s by omega)]
      simp only [chargeSum_append, chargeSum_cons, chargeSum_nil, hch.whole]
      abel
  | front r hend =>
      refine ⟨fun _ => ?_, fun s' hs' => (nomatch hs')⟩
      rw [restCharge_within ch hsorted hlt hend.le, if_neg hend.ne',
        startCharge_of_mem ch level (by simp) (show r.endSeq ≠ s by omega)]
      simp only [chargeSum_append, chargeSum_cons, chargeSum_nil, hch.found, hch.head, hch.tail]
      abel
  | span r hbytes hend hspan =>
      refine ⟨fun hnone => (nomatch hnone), ?_⟩
      rintro s' ⟨⟩
      obtain ⟨-, -, hpost⟩ := separated_around hsep
      obtain ⟨hroom', hrest⟩ := hgoes r (recordFound seg level (thisIsRdbData seg s) .sent r)
        r.endSeq rfl hbytes (recordFound_endSeq ..) hpost
      refine ⟨by simp, ?_, hroom'⟩
      rw [hrest, restCharge_span ch hsorted hbytes hend,
        startCharge_of_mem ch level (by simp) hbytes.ne']
      simp only [chargeSum_append, chargeSum_cons, chargeSum_nil, hch.found]
      abel
  | reuse r c _ hempty hlo hhi hpost hnext =>
      have hkeys : ∀ en ∈ post, c ≤ en.2.startSeq := by
        intro en hen
        rw [← (hwf en (by simp [hen])).1]
        exact hpost en hen
      have hstart : startCharge ch level (pre ++ [(s, r)] ++ post) s = 0 := by
        obtain ⟨hpre, hlater⟩ := ne_of_mem_pre hsorted
        apply startCharge_of_empty
        intro en hen hkey
        rcases List.mem_append.mp hen with hen | hen
        · rcases List.mem_append.mp hen with hen | hen
          · exact absurd hkey (hpre en hen).ne
          · obtain rfl := List.mem_singleton.mp hen
            exact hempty
        · exact absurd hkey (hlater en hen).ne'
      rw [restCharge_reuse ch hsorted hempty hpost hnext hhi, hstart]
      by_cases hgo : c < e
      · rw [if_pos hgo, if_pos hgo]
        refine ⟨fun hnone => (nomatch hnone), ?_⟩
        rintro s' ⟨⟩
        obtain ⟨hroom', hrest⟩ := hgoes r (reusedRange seg s c r) c rfl hlo
          (reusedRange_endSeq ..) hkeys
        refine ⟨by simp, ?_, hroom'⟩
        rw [hrest]
        simp only [chargeSum_append, chargeSum_cons, chargeSum_nil, hch.reuse]
        abel
      · rw [if_neg hgo, if_neg hgo]
        refine ⟨fun _ => ?_, fun s' hs' => (nomatch hs')⟩
        simp only [chargeSum_append, chargeSum_cons, chargeSum_nil, hch.reuse]
        abel
  | back key r hkey hlo hend =>
      have hends := hroom (key, r) (by simp) hkey
      exact absurd hlo hends.not_gt
  | middle key r hkey hend =>
      have hends : r.endSeq ≤ s := hroom (key, r) (by simp) hkey
      omega
  | beyond key r hkey hlo hend =>
      have hends := hroom (key, r) (by simp) hkey
      exact absurd hlo hends.not_gt

end Pass

/-! ## The loop -/

section Loop

variable {α : Type} [AddCommMonoid α] {f : ByteRange → α} {ch : Charges α}
variable {rm rm' : RangeManager} {seg : DataSeg} {level s e fuel : ℕ} {ret : Bool}

theorem insertLoop_charges (hch : ChargedBy seg f ch) (hapart : rm.Apart) (hlt : s < e)
    (hsize : e - s < 2 ^ 16 - 1) (hroom : ∀ en ∈ rm.ranges.entries, en.1 < s → en.2.endSeq ≤ s)
    (h : insertLoop e .sent seg fuel rm s level = .ok (rm', ret)) :
    chargeSum f rm'.ranges.entries = chargeSum f rm.ranges.entries +
      (startCharge ch level rm.ranges.entries s + restCharge ch e rm.ranges.entries s) := by
  -- one pass at a time: what is left to charge is read off the map that the pass leaves
  induction fuel generalizing rm s level with
  | zero => cases h
  | succ fuel ih =>
      have hsent : InsertType.sent ≠ .sojourn := by simp
      obtain ⟨hwf, hsep⟩ := hapart
      rw [insertLoop] at h
      cases hbody : rm.insertBody s e .sent seg level with
      | error err =>
          rw [hbody] at h
          cases h
      | ok out =>
          rw [hbody] at h
          obtain ⟨pre, old, new, post, hold, -, hnew, hpass⟩ :=
            insertBody_passes hwf hsep hlt (fun _ => hsize) hsent (fun h => by cases h) hbody
          have hsorted := rm.ranges.sorted
          rw [hold] at hwf hsep hsorted hroom ⊢
          obtain ⟨hdone, hagain⟩ := hpass.charges hch hlt hsorted hwf hsep hroom
          rw [← hnew] at hdone hagain
          cases out with
          | done rm₁ ret₁ =>
              obtain ⟨rfl, -⟩ := Prod.mk.inj (Except.ok.inj h)
              exact hdone rfl
          | again rm₁ s₁ =>
              obtain ⟨hne, hsum, hroom'⟩ := hagain s₁ rfl
              obtain ⟨hlo, hhi⟩ := hpass.next_bounds rfl
              have hentries : rm₁.ranges.entries = pre ++ new ++ post := hnew
              have hapart₁ : rm₁.Apart := hpass.apart hwf hsep hlt (fun _ => hne) hentries
              have hrest := ih hapart₁ hhi (by omega) hroom' h
              rw [hrest, startCharge_succ, zero_add]
              exact hsum

end Loop

/-! ## Data that starts inside a range -/

theorem aroundRange_eq_none {lastSeq s : ℕ} {l : List Entry}
    (h : ∀ en ∈ l, en.1 < s → s < lastSeq → en.2.endSeq ≤ s) : aroundRange lastSeq l s = none := by
  unfold aroundRange
  rw [Option.map_eq_none_iff, List.find?_eq_none]
  intro en hen hfound
  simp only [Bool.and_eq_true, decide_eq_true_eq] at hfound
  obtain ⟨⟨hkey, hlo⟩, hlast⟩ := hfound
  have := h en hen hkey hlast
  omega

theorem aroundRange_eq_some {lastSeq s key : ℕ} {l : List Entry} {r : ByteRange}
    (hwf : WfEntries l) (hsep : Separated l) (hmem : (key, r) ∈ l) (hkey : key < s)
    (hlo : s < r.endSeq) (hlast : s < lastSeq) : aroundRange lastSeq l s = some r := by
  have holds : ∀ en ∈ l, en.1 < s → s < en.2.endSeq → en.2.Holds s := by
    intro en hen hk hl
    have hstart : en.1 = en.2.startSeq := (hwf en hen).1
    exact ⟨by omega, hl⟩
  have hsome : (l.find? fun en =>
      decide (en.1 < s) && decide (s < en.2.endSeq) && decide (s < lastSeq)).isSome = true := by
    rw [List.find?_isSome]
    exact ⟨(key, r), hmem, by simp [hkey, hlo, hlast]⟩
  obtain ⟨en, hfind⟩ := Option.isSome_iff_exists.mp hsome
  have hen := List.mem_of_find?_eq_some hfind
  have hfound := List.find?_some hfind
  simp only [Bool.and_eq_true, decide_eq_true_eq] at hfound
  -- only one range holds the byte
  have heq : en = (key, r) := eq_of_holds hsep hen hmem
    (holds en hen hfound.1.1 hfound.1.2) (holds (key, r) hmem hkey hlo)
  unfold aroundRange
  rw [hfind, heq]
  rfl

theorem exists_of_aroundRange {lastSeq s : ℕ} {l : List Entry} {r : ByteRange}
    (h : aroundRange lastSeq l s = some r) : ∃ key, (key, r) ∈ l ∧ key < s ∧ s < r.endSeq := by
  unfold aroundRange at h
  obtain ⟨⟨key, o⟩, hfind, rfl⟩ := Option.map_eq_some_iff.mp h
  have hfound := List.find?_some hfind
  simp only [Bool.and_eq_true, decide_eq_true_eq] at hfound
  exact ⟨key, List.mem_of_find?_eq_some hfind, hfound.1.1, hfound.1.2⟩

section Around

variable {α : Type} [AddCommMonoid α] {f : ByteRange → α} {ch : Charges α}
variable {lastSeq s e : ℕ} {seg : DataSeg} {pre post old new : List Entry} {next : Option ℕ}

/-- No range starts at a byte that another one holds. -/
theorem ne_of_around {l : List Entry} {key : ℕ} {r : ByteRange} (hwf : WfEntries l)
    (hsorted : l.Pairwise fun a b => a.1 < b.1) (hsep : Separated l) (hmem : (key, r) ∈ l)
    (hkey : key < s) (hlo : s < r.endSeq) : ∀ en ∈ l, en.1 ≠ s := by
  obtain ⟨pre, post, rfl⟩ := List.append_of_mem hmem
  have hcut : pre ++ (key, r) :: post = pre ++ [(key, r)] ++ post := by simp
  rw [hcut] at hwf hsorted hsep ⊢
  obtain ⟨hpre, -⟩ := ne_of_mem_pre hsorted
  obtain ⟨-, -, hpost⟩ := separated_around hsep
  intro en hen
  rcases List.mem_append.mp hen with hen | hen
  · rcases List.mem_append.mp hen with hen | hen
    · have := hpre en hen
      omega
    · obtain rfl := List.mem_singleton.mp hen
      exact hkey.ne
  · have hstart := hpost en hen
    have hkey' : en.1 = en.2.startSeq := (hwf en (by simp [hen])).1
    dsimp only at hstart
    omega

/-- A first pass that splits the range around `s`. -/
theorem Pass.charges_around (hch : ChargedBy seg f ch)
    (hpass : Pass lastSeq .sent seg 0 s e pre post old new next)
    (hlt : s < e) (hsorted : (pre ++ old ++ post).Pairwise fun a b => a.1 < b.1)
    (hwf : WfEntries (pre ++ old ++ post)) (hsep : Separated (pre ++ old ++ post)) {key : ℕ}
    {r : ByteRange} (hmem : (key, r) ∈ pre ++ old ++ post) (hkey : key < s) (hlo : s < r.endSeq)
    (hlast : s < lastSeq) :
    (next = none → chargeSum f (pre ++ new ++ post) =
      chargeSum f (pre ++ old ++ post) + dataCharge ch lastSeq e (pre ++ old ++ post) s) ∧
    ∀ s', next = some s' → old ≠ [] ∧
      chargeSum f (pre ++ new ++ post) + restCharge ch e (pre ++ new ++ post) s' =
        chargeSum f (pre ++ old ++ post) + dataCharge ch lastSeq e (pre ++ old ++ post) s ∧
      ∀ en ∈ pre ++ new ++ post, en.1 < s' → en.2.endSeq ≤ s' := by
  have hfree := ne_of_around hwf hsorted hsep hmem hkey hlo
  have hstart : key = r.startSeq := (hwf _ hmem).1
  have hhold : r.Holds s := ⟨by omega, hlo⟩
  -- the range around `s` is the only one, so the charge can be read at the range of the pass
  have hcharge : ∀ {k o}, (k, o) ∈ pre ++ old ++ post → k < s → s < o.endSeq →
      dataCharge ch lastSeq e (pre ++ old ++ post) s =
        if o.endSeq < e then ch.beyond + restCharge ch e (pre ++ old ++ post) o.endSeq
        else ch.split := by
    intro k o ho hk ho'
    unfold dataCharge
    rw [aroundRange_eq_some hwf hsep ho hk ho' hlast]
  cases hpass with
  | fresh _ _ _ hgap _ =>
      rw [List.append_nil] at hmem
      exact absurd hhold (hgap hlast _ hmem)
  | missing hitype => cases hitype
  | whole o | front o | span o | reuse o => exact absurd rfl (hfree (s, o) (by simp))
  | back k o hk ho hend =>
      refine ⟨fun _ => ?_, fun s' hs' => (nomatch hs')⟩
      rw [hcharge (by simp) hk ho, if_neg (by omega)]
      simp only [chargeSum_append, chargeSum_cons, chargeSum_nil, hch.head,
        hch.split _ _ (hch.tail o s)]
      abel
  | middle k o hk hend =>
      refine ⟨fun _ => ?_, fun s' hs' => (nomatch hs')⟩
      have ho : s < o.endSeq := hlt.trans hend
      have hzero : f ((o.tail s).head e) = 0 := (hch.head _ e).trans (hch.tail o s)
      rw [hcharge (by simp) hk ho, if_neg (by omega)]
      simp only [chargeSum_append, chargeSum_cons, chargeSum_nil, hch.head, hch.split _ _ hzero,
        hch.tail]
      abel
  | beyond k o hk ho hend =>
      refine ⟨fun hnone => (nomatch hnone), ?_⟩
      rintro s' ⟨⟩
      obtain ⟨hpre, hlater⟩ := ne_of_mem_pre hsorted
      obtain ⟨-, hpre', hpost⟩ := separated_around hsep
      refine ⟨by simp, ?_, ?_⟩
      · -- both maps go on with the same entries
        have hsame : restCharge ch e (pre ++ [(k, o.head s),
              (s, recordSplit seg 0 (thisIsRdbData seg s) .sent (o.tail s))] ++ post) o.endSeq =
            restCharge ch e (pre ++ [(k, o)] ++ post) o.endSeq := by
          rw [restCharge_append, restCharge_append]
          · intro en hen
            rcases List.mem_append.mp hen with hen | hen
            · have := hpre en hen
              omega
            · obtain rfl := List.mem_singleton.mp hen
              exact (hk.trans ho).ne
          · intro en hen
            rcases List.mem_append.mp hen with hen | hen
            · have := hpre en hen
              omega
            · rcases List.mem_cons.mp hen with rfl | hen
              · exact (hk.trans ho).ne
              · obtain rfl := List.mem_singleton.mp hen
                exact ho.ne
        rw [hsame, hcharge (by simp) hk ho, if_pos hend]
        simp only [chargeSum_append, chargeSum_cons, chargeSum_nil, hch.head,
          hch.beyond _ _ (hch.tail o s)]
        abel
      · intro en hen hkey'
        rcases List.mem_append.mp hen with hen | hen
        · rcases List.mem_append.mp hen with hen | hen
          · have hends : en.2.endSeq ≤ o.startSeq := hpre' en hen
            have hstart' : k = o.startSeq := (hwf (k, o) (by simp)).1
            omega
          · rcases List.mem_cons.mp hen with rfl | hen
            · exact ho.le
            · obtain rfl := List.mem_singleton.mp hen
              exact (recordSplit_endSeq ..).le
        · have hnext : o.endSeq ≤ en.2.startSeq := hpost en hen
          have hkey'' : en.1 = en.2.startSeq := (hwf en (by simp [hen])).1
          omega

end Around

section Start

variable {α : Type} [AddCommMonoid α] {f : ByteRange → α} {ch : Charges α}
variable {rm rm' : RangeManager} {seg : DataSeg} {s e fuel : ℕ} {ret : Bool}

/-- From `lastSeq` on, data that no range starts with gets a new one. -/
theorem insertBody_at_end {out : Outcome} {level : ℕ} (hfree : rm.ranges.find? s = none)
    (hlt : s < e) (hsize : e - s < 2 ^ 16 - 1) (hlast : ¬s < rm.lastSeq)
    (h : rm.insertBody s e .sent seg level = .ok out) :
    out = .done { rm with ranges := rm.ranges.insert s (freshRange seg s e) } true := by
  unfold insertBody at h
  rw [if_neg hlt.ne, hfree] at h
  dsimp only at h
  unfold insertNotFound at h
  rw [if_neg hlast] at h
  obtain ⟨r, hr, h⟩ := Run.exists_of_bind_ok h
  rw [newDataRange_eq hlt hsize] at hr
  split at hr
  · cases hr
  · obtain rfl := Except.ok.inj hr
    exact (Except.ok.inj h).symm

/-- What data is charged on a map with ranges apart. -/
theorem insertLoop_dataCharge (hch : ChargedBy seg f ch) (hapart : rm.Apart) (hlt : s < e)
    (hsize : e - s < 2 ^ 16 - 1)
    (h : insertLoop e .sent seg fuel rm s 0 = .ok (rm', ret)) :
    chargeSum f rm'.ranges.entries =
      chargeSum f rm.ranges.entries + dataCharge ch rm.lastSeq e rm.ranges.entries s := by
  -- if a range lies around `s`, the first pass splits it; from then on no range is in the way
  by_cases hroom : ∀ en ∈ rm.ranges.entries, en.1 < s → en.2.endSeq ≤ s
  · have hnone : aroundRange rm.lastSeq rm.ranges.entries s = none :=
      aroundRange_eq_none fun en hen hkey _ => hroom en hen hkey
    unfold dataCharge
    rw [hnone]
    exact insertLoop_charges hch hapart hlt hsize hroom h
  · push Not at hroom
    obtain ⟨⟨key, r⟩, hmem, hkey, hlo⟩ := hroom
    obtain ⟨hwf, hsep⟩ := hapart
    have hsorted := rm.ranges.sorted
    have hfree := ne_of_around hwf hsorted hsep hmem hkey hlo
    cases fuel with
    | zero => cases h
    | succ fuel =>
        rw [insertLoop] at h
        cases hbody : rm.insertBody s e .sent seg 0 with
        | error err =>
            rw [hbody] at h
            cases h
        | ok out =>
            rw [hbody] at h
            by_cases hlast : s < rm.lastSeq
            · have hsent : InsertType.sent ≠ .sojourn := by simp
              obtain ⟨pre, old, new, post, hold, -, hnew, hpass⟩ :=
                insertBody_passes hwf hsep hlt (fun _ => hsize) hsent (fun h => by cases h) hbody
              rw [hold] at hwf hsep hsorted hmem ⊢
              obtain ⟨hdone, hagain⟩ :=
                hpass.charges_around hch hlt hsorted hwf hsep hmem hkey hlo hlast
              rw [← hnew] at hdone hagain
              cases out with
              | done rm₁ ret₁ =>
                  obtain ⟨rfl, -⟩ := Prod.mk.inj (Except.ok.inj h)
                  exact hdone rfl
              | again rm₁ s₁ =>
                  obtain ⟨hne, hsum, hroom'⟩ := hagain s₁ rfl
                  obtain ⟨hlo', hhi⟩ := hpass.next_bounds rfl
                  have hentries : rm₁.ranges.entries = pre ++ new ++ post := hnew
                  have hapart₁ : rm₁.Apart := hpass.apart hwf hsep hlt (fun _ => hne) hentries
                  have hrest := insertLoop_charges hch hapart₁ hhi (by omega) hroom' h
                  rw [hrest, startCharge_succ, zero_add]
                  exact hsum
            · -- from `lastSeq` on the range around `s` is not looked for
              have hnone : rm.ranges.find? s = none := OrdMap.find?_eq_none_iff.mpr hfree
              obtain rfl := insertBody_at_end hnone hlt hsize hlast hbody
              obtain ⟨rfl, -⟩ := Prod.mk.inj (Except.ok.inj h)
              have haround : aroundRange rm.lastSeq rm.ranges.entries s = none :=
                aroundRange_eq_none fun _ _ _ hlast' => absurd hlast' hlast
              have hentries := OrdMap.entries_insert_of_find?_eq_none hnone (freshRange seg s e)
              unfold dataCharge
              rw [haround]
              dsimp only
              rw [restCharge_of_free ch hfree,
                startCharge_of_empty ch 0 fun en hen hkey => absurd hkey (hfree en hen), zero_add]
              show chargeSum f (rm.ranges.insert s (freshRange seg s e)).entries = _
              rw [hentries, chargeSum_append, chargeSum_cons, hch.fresh,
                ← rm.ranges.below_append_atLeast s, chargeSum_append]
              abel

end Start

end RangeManager

end AnalyseTCP
