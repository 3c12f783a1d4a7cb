import AnalyseTCP.TcpOptions
import Mathlib.Data.Finset.Card

/-!
# How `parseTCPOptions` walks over the options

Where the next iteration starts depends on the bytes alone, not on what was parsed before.  So the
loop ends within `option_length` iterations or never: it runs into an offset for the second time as
soon as it makes one iteration too many.  With a length that a header can have, this takes an option
whose size byte is 0.  Of the bytes that are read only the kinds are known to lie inside the options.
-/

namespace AnalyseTCP

namespace Dump

variable {tmpConn : Option AckReference} {opts : ℕ → UInt8} {optionLength : ℕ}

/-! ## The next offset -/

/-- Whether an option can be parsed does not depend on the data before. -/
theorem parseOption_cases (tmpConn : Option AckReference) (opts : ℕ → UInt8) (o : ℕ) :
    (∀ data, ∃ d, parseOption tmpConn opts data o = .ok d) ∨
      ∃ e, ∀ data, parseOption tmpConn opts data o = .error e := by
  cases tmpConn with
  | none =>
      left
      intro data
      exact ⟨_, rfl⟩
  | some conn =>
      by_cases hkind : opts o = 5
      · cases hsacks : readSacks conn opts o (sackBlocks opts o) with
        | error e =>
            right
            refine ⟨e, fun data => ?_⟩
            unfold parseOption
            simp only [hkind, hsacks]
            rfl
        | ok sacks =>
            left
            intro data
            unfold parseOption
            simp only [hkind, hsacks]
            exact ⟨_, rfl⟩
      · left
        intro data
        unfold parseOption
        simp only [if_neg hkind]
        exact ⟨_, rfl⟩

theorem nextOffset_of_parse {o : ℕ} {data d : DataSeg} (henters : Enters opts optionLength o)
    (hend : opts o ≠ 0) (hnop : opts o ≠ 1) (h : parseOption tmpConn opts data o = .ok d) :
    nextOffset tmpConn opts optionLength o = some (add32 o (opts (o + 1)).toNat) := by
  have henters' : opts 0 ≠ 0 ∧ o < optionLength := henters
  unfold nextOffset
  rw [if_pos henters', if_neg hend, if_neg hnop]
  rcases parseOption_cases tmpConn opts o with hok | ⟨e, herr⟩
  · obtain ⟨d', hd'⟩ := hok {}
    rw [hd']
  · rw [herr] at h
    cases h

theorem nextOffset_of_error {o : ℕ} {data : DataSeg} {e : Abort} (hend : opts o ≠ 0)
    (hnop : opts o ≠ 1) (h : parseOption tmpConn opts data o = .error e) :
    nextOffset tmpConn opts optionLength o = none := by
  unfold nextOffset
  rw [if_neg hend, if_neg hnop]
  rcases parseOption_cases tmpConn opts o with hok | ⟨e', herr⟩
  · obtain ⟨d, hd⟩ := hok data
    rw [hd] at h
    cases h
  · rw [herr]
    exact ite_self _

/-- An iteration that has a successor entered the loop. -/
theorem enters_of_nextOffset {o o' : ℕ} (h : nextOffset tmpConn opts optionLength o = some o') :
    Enters opts optionLength o := by
  unfold nextOffset at h
  split_ifs at h with henters
  all_goals exact henters

/-- The next option starts behind the size that this one states, or behind its one byte. -/
theorem eq_of_nextOffset {o o' : ℕ} (h : nextOffset tmpConn opts optionLength o = some o') :
    opts o ≠ 0 ∧ (opts o = 1 ∧ o' = add32 o 1 ∨
      opts o ≠ 1 ∧ o' = add32 o (opts (o + 1)).toNat) := by
  unfold nextOffset at h
  split_ifs at h with _ hend hnop
  · exact ⟨hend, .inl ⟨hnop, (Option.some.inj h).symm⟩⟩
  · split at h
    · cases h
    · exact ⟨hend, .inr ⟨hnop, (Option.some.inj h).symm⟩⟩

/-- An option of size 0 sends the loop back to itself. -/
theorem nextOffset_of_size_zero {o : ℕ} (henters : Enters opts optionLength o) (hend : opts o ≠ 0)
    (hnop : opts o ≠ 1) (hsize : opts (o + 1) = 0) (hlt : o < 2 ^ 32) :
    nextOffset tmpConn opts optionLength o = some o := by
  have hparse : ∃ d, parseOption tmpConn opts {} o = .ok d := by
    have hblocks : sackBlocks opts o = 0 := by
      unfold sackBlocks
      rw [hsize]
      rfl
    have hsacks : ∀ conn, readSacks conn opts o 0 = .ok [] := fun _ => rfl
    unfold parseOption
    cases tmpConn with
    | none => exact ⟨_, rfl⟩
    | some conn =>
        simp only [hblocks, hsacks]
        split_ifs
        all_goals exact ⟨_, rfl⟩
  obtain ⟨d, hd⟩ := hparse
  rw [nextOffset_of_parse henters hend hnop hd, hsize]
  have hsame : add32 o (0 : UInt8).toNat = o := Nat.mod_eq_of_lt hlt
  rw [hsame]

/-! ## The walk -/

theorem walk_succ_left (o k : ℕ) : walk tmpConn opts optionLength o (k + 1) =
    (nextOffset tmpConn opts optionLength o).bind fun o' =>
      walk tmpConn opts optionLength o' k := by
  induction k with
  | zero =>
      show (some o).bind _ = _
      rw [Option.bind_some]
      cases nextOffset tmpConn opts optionLength o <;> rfl
  | succ k ih =>
      rw [walk, ih, Option.bind_assoc]
      rfl

theorem walk_add (o k l : ℕ) : walk tmpConn opts optionLength o (k + l) =
    (walk tmpConn opts optionLength o k).bind fun o' => walk tmpConn opts optionLength o' l := by
  induction l with
  | zero =>
      cases walk tmpConn opts optionLength o k <;> rfl
  | succ l ih =>
      rw [← Nat.add_assoc, walk, ih, Option.bind_assoc]
      rfl

/-- Every offset on the walk but the last one enters the loop. -/
theorem enters_of_walk {o k l o' : ℕ} (hlt : k < l)
    (h : walk tmpConn opts optionLength o l = some o') :
    ∃ o₁, walk tmpConn opts optionLength o k = some o₁ ∧ Enters opts optionLength o₁ := by
  have hsplit : l = k + (l - k - 1 + 1) := by omega
  rw [hsplit, walk_add] at h
  obtain ⟨o₁, ho₁, h⟩ := Option.bind_eq_some_iff.mp h
  rw [walk_succ_left] at h
  obtain ⟨o₂, ho₂, -⟩ := Option.bind_eq_some_iff.mp h
  exact ⟨o₁, ho₁, enters_of_nextOffset ho₂⟩

/-- The loop needs more iterations exactly when the walk enters it all the time. -/
theorem parseLoop_eq_none_iff (fuel : ℕ) (data : DataSeg) (o : ℕ) :
    parseLoop tmpConn opts optionLength fuel data o = none ↔
      ∀ k ≤ fuel, ∃ o', walk tmpConn opts optionLength o k = some o' ∧
        Enters opts optionLength o' := by
  induction fuel generalizing data o with
  | zero =>
      rw [parseLoop]
      constructor
      · intro h k hk
        obtain rfl := Nat.le_zero.mp hk
        refine ⟨o, rfl, ?_⟩
        by_contra hout
        have hnone : some (Except.ok data) = (none : Option (Except Abort DataSeg)) :=
          (if_neg hout).symm.trans h
        cases hnone
      · intro h
        obtain ⟨o', ho', henters⟩ := h 0 le_rfl
        obtain rfl := Option.some.inj ho'
        exact if_pos henters
  | succ fuel ih =>
      have hrest : ∀ o' data', nextOffset tmpConn opts optionLength o = some o' →
          (parseLoop tmpConn opts optionLength fuel data' o' = none ↔
            ∀ k ≤ fuel + 1, ∃ o₁, walk tmpConn opts optionLength o k = some o₁ ∧
              Enters opts optionLength o₁) := by
        intro o' data' hnext
        have henters := enters_of_nextOffset hnext
        rw [ih]
        constructor
        · intro h k hk
          cases k with
          | zero => exact ⟨o, rfl, henters⟩
          | succ k =>
              rw [walk_succ_left, hnext]
              exact h k (by omega)
        · intro h k hk
          have hk' := h (k + 1) (by omega)
          rw [walk_succ_left, hnext] at hk'
          exact hk'
      -- the walk ends with an iteration that has no successor
      have hstop : nextOffset tmpConn opts optionLength o = none →
          ¬∀ k ≤ fuel + 1, ∃ o₁, walk tmpConn opts optionLength o k = some o₁ ∧
            Enters opts optionLength o₁ := by
        intro hnone h
        obtain ⟨o₁, ho₁, -⟩ := h 1 (by omega)
        rw [walk_succ_left, hnone] at ho₁
        cases ho₁
      rw [parseLoop]
      by_cases henters : opts 0 ≠ 0 ∧ o < optionLength
      · rw [if_pos henters]
        by_cases hend : opts o = 0
        · rw [if_pos hend]
          refine iff_of_false (fun h => nomatch h) (hstop ?_)
          unfold nextOffset
          rw [if_pos henters, if_pos hend]
        rw [if_neg hend]
        by_cases hnop : opts o = 1
        · rw [if_pos hnop]
          apply hrest
          unfold nextOffset
          rw [if_pos henters, if_neg hend, if_pos hnop]
        rw [if_neg hnop]
        cases hparse : parseOption tmpConn opts data o with
        | error e =>
            refine iff_of_false (fun h => nomatch h) (hstop ?_)
            exact nextOffset_of_error hend hnop hparse
        | ok d => exact hrest _ d (nextOffset_of_parse henters hend hnop hparse)
      · rw [if_neg henters]
        refine iff_of_false (fun h => nomatch h) (hstop ?_)
        unfold nextOffset
        rw [if_neg henters]

/-! ## Termination -/

/-- No iteration starts where another one did. -/
def NoReturn (tmpConn : Option AckReference) (opts : ℕ → UInt8) (optionLength : ℕ) : Prop :=
  ∀ i j o, i < j → walk tmpConn opts optionLength 0 i = some o →
    walk tmpConn opts optionLength 0 j = some o → ¬Enters opts optionLength o

/-- A walk that comes back to an offset goes on for ever. -/
theorem enters_of_return {i j o : ℕ} (hlt : i < j)
    (hi : walk tmpConn opts optionLength 0 i = some o)
    (hj : walk tmpConn opts optionLength 0 j = some o) (ho : Enters opts optionLength o) (k : ℕ) :
    ∃ o', walk tmpConn opts optionLength 0 k = some o' ∧ Enters opts optionLength o' := by
  induction k using Nat.strong_induction_on with
  | h k ih =>
      by_cases hk : k < j
      · exact enters_of_walk hk hj
      · -- from `j` on, the walk repeats what it did from `i` on
        have hsame : walk tmpConn opts optionLength 0 k =
            walk tmpConn opts optionLength 0 (i + (k - j)) := by
          have hsplit : k = j + (k - j) := by omega
          rw [hsplit, walk_add, hj, Nat.add_sub_cancel_left, walk_add, hi]
        rw [hsame]
        by_cases heq : k = j
        · rw [heq, Nat.sub_self, Nat.add_zero]
          exact ⟨o, hi, ho⟩
        · exact ih _ (by omega)

/-- More than `option_length` iterations start at some offset twice. -/
theorem parseTCPOptions_isSome_iff (data : DataSeg) :
    (parseTCPOptions tmpConn opts optionLength data).isSome = true ↔
      NoReturn tmpConn opts optionLength := by
  rw [Option.isSome_iff_ne_none, ne_eq]
  unfold parseTCPOptions
  rw [parseLoop_eq_none_iff]
  constructor
  · intro h i j o hlt hi hj ho
    exact h fun k _ => enters_of_return hlt hi hj ho k
  · -- pigeonhole: the offsets of the loop lie below `option_length`
    intro hno hall
    have hget : ∀ k, ∃ o, k ≤ optionLength →
        walk tmpConn opts optionLength 0 k = some o ∧ Enters opts optionLength o := by
      intro k
      by_cases hk : k ≤ optionLength
      · obtain ⟨o, ho⟩ := hall k hk
        exact ⟨o, fun _ => ho⟩
      · exact ⟨0, fun h => absurd h hk⟩
    choose offset hoffset using hget
    have hcard : (Finset.range optionLength).card < (Finset.range (optionLength + 1)).card := by
      rw [Finset.card_range, Finset.card_range]
      omega
    obtain ⟨i, hi, j, hj, hne, heq⟩ := Finset.exists_ne_map_eq_of_card_lt_of_maps_to hcard
      (f := offset) (by
        intro k hk
        have hk' := Finset.mem_range.mp (Finset.mem_coe.mp hk)
        obtain ⟨-, -, hlt⟩ := hoffset k (by omega)
        exact Finset.mem_coe.mpr (Finset.mem_range.mpr hlt))
    have hi' := hoffset i (by have := Finset.mem_range.mp hi; omega)
    have hj' := hoffset j (by have := Finset.mem_range.mp hj; omega)
    rw [← heq] at hj'
    rcases Nat.lt_or_gt_of_ne hne with hlt | hlt
    · exact hno i j _ hlt hi'.1 hj'.1 hi'.2
    · exact hno j i _ hlt hj'.1 hi'.1 hi'.2

/-- A loop that needs more than `option_length` iterations never ends. -/
theorem parseLoop_never_ends {data : DataSeg}
    (h : parseTCPOptions tmpConn opts optionLength data = none) (fuel : ℕ) :
    parseLoop tmpConn opts optionLength fuel data 0 = none := by
  have hreturn : ¬NoReturn tmpConn opts optionLength := by
    rw [← parseTCPOptions_isSome_iff data, h]
    exact Bool.false_ne_true
  unfold NoReturn at hreturn
  push Not at hreturn
  obtain ⟨i, j, o, hlt, hi, hj, ho⟩ := hreturn
  rw [parseLoop_eq_none_iff]
  exact fun k _ => enters_of_return hlt hi hj ho k

/-- Every option that the loop reaches moves it on.  Beyond the lengths that the offset can leave
without a wrap, that is as much as to say that it does not come back. -/
def OptionsAdvance (tmpConn : Option AckReference) (opts : ℕ → UInt8) (optionLength : ℕ) : Prop :=
  if optionLength + 255 ≤ 2 ^ 32 then
    ∀ o, Reaches tmpConn opts optionLength o → opts o = 0 ∨ opts o = 1 ∨ opts (o + 1) ≠ 0
  else NoReturn tmpConn opts optionLength

theorem lt_of_nextOffset {o o' : ℕ} (hlen : optionLength + 255 ≤ 2 ^ 32)
    (hadvance : opts o = 0 ∨ opts o = 1 ∨ opts (o + 1) ≠ 0)
    (h : nextOffset tmpConn opts optionLength o = some o') : o < o' := by
  obtain ⟨-, hlt⟩ := enters_of_nextOffset h
  obtain ⟨hend, hnop | hsize⟩ := eq_of_nextOffset h
  · have hbound : o + 1 < 2 ^ 32 := by omega
    obtain ⟨-, rfl⟩ := hnop
    unfold add32
    rw [Nat.mod_eq_of_lt hbound]
    exact Nat.lt_succ_self o
  · obtain ⟨hnop, rfl⟩ := hsize
    have hne : opts (o + 1) ≠ 0 := (hadvance.resolve_left hend).resolve_left hnop
    have hpos : 0 < (opts (o + 1)).toNat := by
      rw [Nat.pos_iff_ne_zero]
      exact fun hzero => hne (UInt8.toNat_inj.mp hzero)
    have hle : (opts (o + 1)).toNat < 2 ^ 8 := (opts (o + 1)).toNat_lt
    have hbound : o + (opts (o + 1)).toNat < 2 ^ 32 := by omega
    unfold add32
    rw [Nat.mod_eq_of_lt hbound]
    omega

/-- The loop ends within `option_length` iterations exactly when every option it reaches moves it
on. -/
theorem parseTCPOptions_ends_iff (tmpConn : Option AckReference) (opts : ℕ → UInt8)
    (optionLength : ℕ) (data : DataSeg) :
    (parseTCPOptions tmpConn opts optionLength data).isSome = true ↔
      OptionsAdvance tmpConn opts optionLength := by
  rw [parseTCPOptions_isSome_iff]
  unfold OptionsAdvance
  split_ifs with hlen
  · constructor
    · rintro hno o ⟨⟨k, hk⟩, henters⟩
      by_contra hstuck
      push Not at hstuck
      obtain ⟨hend, hnop, hsize⟩ := hstuck
      have hlt : o < 2 ^ 32 := by
        have := henters.2
        omega
      have hnext : walk tmpConn opts optionLength 0 (k + 1) = some o := by
        rw [walk, hk]
        exact nextOffset_of_size_zero henters hend hnop hsize hlt
      exact hno k (k + 1) o (Nat.lt_succ_self k) hk hnext henters
    · intro hadvance i j o hlt hi hj henters
      -- the offsets on the walk increase
      have hmono : ∀ l o', walk tmpConn opts optionLength 0 (i + (l + 1)) = some o' → o < o' := by
        intro l
        induction l with
        | zero =>
            intro o' ho'
            rw [Nat.zero_add, walk, hi] at ho'
            exact lt_of_nextOffset hlen (hadvance o ⟨⟨i, hi⟩, henters⟩) ho'
        | succ l ih =>
            intro o' ho'
            rw [← Nat.add_assoc, walk] at ho'
            obtain ⟨o₁, ho₁, hnext⟩ := Option.bind_eq_some_iff.mp ho'
            have hfirst := ih o₁ ho₁
            have hstep := lt_of_nextOffset hlen
              (hadvance o₁ ⟨⟨_, ho₁⟩, enters_of_nextOffset hnext⟩) hnext
            exact hfirst.trans hstep
      have hj' : walk tmpConn opts optionLength 0 (i + (j - i - 1 + 1)) = some o := by
        rw [show i + (j - i - 1 + 1) = j by omega]
        exact hj
      exact absurd (hmono _ _ hj') (lt_irrefl o)
  · exact Iff.rfl

/-- An option with kind 2 and the size byte 0, in one word of options. -/
def zeroSizeOption : ℕ → UInt8 := fun i => if i = 0 then 2 else 0

theorem parseTCPOptions_hangs :
    (∀ fuel, parseLoop none zeroSizeOption 4 fuel {} 0 = none) ∧
      ¬∀ opts optionLength data, (parseTCPOptions none opts optionLength data).isSome = true := by
  have hnone : parseTCPOptions none zeroSizeOption 4 {} = none := by decide
  refine ⟨parseLoop_never_ends hnone, fun h => ?_⟩
  have hsome := h zeroSizeOption 4 {}
  rw [hnone] at hsome
  cases hsome

/-! ## Bounds -/

theorem mem_parseReads_iff {x : ℕ} (fuel o : ℕ) :
    x ∈ parseReads tmpConn opts optionLength fuel o ↔
      x = 0 ∨ ∃ k < fuel, ∃ o', walk tmpConn opts optionLength o k = some o' ∧
        Enters opts optionLength o' ∧ x ∈ optionReads tmpConn opts o' := by
  -- over the fuel: the reads of one option, then those of a walk that is one step shorter
  induction fuel generalizing o with
  | zero =>
      have hreads : parseReads tmpConn opts optionLength 0 o = [0] := by
        rw [parseReads]
        split_ifs <;> rfl
      rw [hreads, List.mem_singleton]
      constructor
      · exact .inl
      · rintro (h | ⟨k, hk, -⟩)
        · exact h
        · exact absurd hk (Nat.not_lt_zero k)
  | succ fuel ih =>
      rw [parseReads, List.mem_cons]
      by_cases henters : opts 0 ≠ 0 ∧ o < optionLength
      · rw [if_pos henters, List.mem_append]
        constructor
        · rintro (h | h | h)
          · exact .inl h
          · exact .inr ⟨0, Nat.succ_pos fuel, o, rfl, henters, h⟩
          · cases hnext : nextOffset tmpConn opts optionLength o with
            | none =>
                rw [hnext] at h
                cases h
            | some o₁ =>
                rw [hnext] at h
                rcases (ih o₁).mp h with h | ⟨k, hk, o', ho', h⟩
                · exact .inl h
                · refine .inr ⟨k + 1, by omega, o', ?_, h⟩
                  rw [walk_succ_left, hnext]
                  exact ho'
        · rintro (h | ⟨k, hk, o', ho', henters', h⟩)
          · exact .inl h
          · cases k with
            | zero =>
                obtain rfl := Option.some.inj ho'
                exact .inr (.inl h)
            | succ k =>
                rw [walk_succ_left] at ho'
                obtain ⟨o₁, hnext, ho'⟩ := Option.bind_eq_some_iff.mp ho'
                rw [hnext]
                exact .inr (.inr ((ih o₁).mpr (.inr ⟨k, by omega, o', ho', henters', h⟩)))
      · rw [if_neg henters]
        constructor
        · rintro (h | h)
          · exact .inl h
          · cases h
        · rintro (h | ⟨k, hk, o', ho', henters', h⟩)
          · exact .inl h
          · -- no walk enters the loop from here
            exfalso
            cases k with
            | zero =>
                obtain rfl := Option.some.inj ho'
                exact henters henters'
            | succ k =>
                rw [walk_succ_left] at ho'
                obtain ⟨o₁, hnext, -⟩ := Option.bind_eq_some_iff.mp ho'
                exact henters (enters_of_nextOffset hnext)

theorem forall_mem_bytesAt {o n len : ℕ} (hn : 0 < n) :
    (∀ x ∈ bytesAt o n, x < len) ↔ o + n ≤ len := by
  unfold bytesAt
  constructor
  · intro h
    have hlast := h (o + (n - 1))
      (List.mem_map.mpr ⟨n - 1, List.mem_range.mpr (by omega), rfl⟩)
    omega
  · intro h x hx
    obtain ⟨i, hi, rfl⟩ := List.mem_map.mp hx
    have := List.mem_range.mp hi
    omega

/-- What the loop reads of the option at `o` lies inside the options. -/
def OptionFits (tmpConn : Option AckReference) (opts : ℕ → UInt8) (optionLength o : ℕ) : Prop :=
  opts o = 0 ∨ opts o = 1 ∨
    (o + 2 ≤ optionLength ∧ (opts o = 8 → o + 10 ≤ optionLength) ∧
      (opts o = 5 → ∀ conn ∈ tmpConn, ∀ i ∈ blocksRead conn opts o (sackBlocks opts o),
        blockOffset o (sackBlocks opts o) i + 8 ≤ optionLength))

theorem optionReads_inside_iff {o : ℕ} (ho : o < optionLength) :
    (∀ x ∈ optionReads tmpConn opts o, x < optionLength) ↔
      OptionFits tmpConn opts optionLength o := by
  unfold optionReads OptionFits
  by_cases hshort : opts o = 0 ∨ opts o = 1
  · rw [if_pos hshort]
    refine iff_of_true ?_ ?_
    · intro x hx
      obtain rfl := List.mem_singleton.mp hx
      exact ho
    · rcases hshort with hend | hnop
      · exact .inl hend
      · exact .inr (.inl hnop)
  · rw [if_neg hshort]
    push Not at hshort
    obtain ⟨hend, hnop⟩ := hshort
    -- kind and size, the two timestamps, and then the blocks
    have hdata : ∀ l : List ℕ, (∀ x ∈ [o, o + 1] ++
        (if opts o = 8 then bytesAt (o + 2) 8 else []) ++ l, x < optionLength) ↔
        o + 2 ≤ optionLength ∧ (opts o = 8 → o + 10 ≤ optionLength) ∧
          ∀ x ∈ l, x < optionLength := by
      intro l
      have htime : (∀ x ∈ (if opts o = 8 then bytesAt (o + 2) 8 else []), x < optionLength) ↔
          (opts o = 8 → o + 10 ≤ optionLength) := by
        split_ifs with hkind
        · rw [forall_mem_bytesAt (by decide)]
          exact ⟨fun h _ => h, fun h => h hkind⟩
        · exact iff_of_true (fun x hx => nomatch hx) fun h => absurd h hkind
      rw [List.forall_mem_append, List.forall_mem_append, htime, List.forall_mem_cons,
        List.forall_mem_singleton, and_assoc]
      apply and_congr_left
      intro _
      omega
    rw [hdata, or_iff_right hend, or_iff_right hnop]
    apply and_congr_right
    intro _
    apply and_congr_right
    intro _
    cases tmpConn with
    | none => exact iff_of_true (fun x hx => nomatch hx) fun _ conn hconn => nomatch hconn
    | some conn =>
        dsimp only
        split_ifs with hkind
        · constructor
          · rintro h - c hc i hi
            obtain rfl := Option.some.inj hc
            apply (forall_mem_bytesAt (by decide)).mp
            intro x hx
            exact h x (List.mem_flatMap.mpr ⟨i, hi, hx⟩)
          · intro h x hx
            obtain ⟨i, hi, hx⟩ := List.mem_flatMap.mp hx
            exact (forall_mem_bytesAt (by decide)).mpr (h hkind conn rfl i hi) x hx
        · exact iff_of_true (fun x hx => nomatch hx) fun h => absurd h hkind

/-- For every caller: the options are long enough for the test of the first byte and for what is
read of each option, or the assertion in `processSent` stops the program. -/
def ReadsFit (caller : Caller) (conn : AckReference) (opts : ℕ → UInt8) (thOff : ℕ) : Prop :=
  (caller = .processSent ∧ thOff < 5) ∨
    (6 ≤ thOff ∧ ∀ o,
      Reaches (if caller = .processAcks then some conn else none) opts (4 * thOff - 20) o →
        OptionFits (if caller = .processAcks then some conn else none) opts (4 * thOff - 20) o)

theorem tcpOptionLen_of_le {thOff : ℕ} (hle : 5 ≤ thOff) (hoff : thOff < 16) :
    tcpOptionLen thOff = 4 * thOff - 20 := by
  unfold tcpOptionLen sub32
  omega

theorem tcpOptionLen_of_lt {thOff : ℕ} (hlt : thOff < 5) : 40 < tcpOptionLen thOff := by
  unfold tcpOptionLen sub32
  omega

/-- Every byte read lies inside the options exactly under `ReadsFit`. -/
theorem callerReads_inside_iff {thOff : ℕ} (hoff : thOff < 16) (caller : Caller)
    (conn : AckReference) (opts : ℕ → UInt8) :
    (∀ fuel, ∀ x ∈ callerReads caller conn opts thOff fuel, (x : ℤ) < thOff * 4 - 20) ↔
      ReadsFit caller conn opts thOff := by
  unfold ReadsFit
  by_cases hstop : caller = .processSent ∧ thOff < 5
  · have hreads : ∀ fuel, callerReads caller conn opts thOff fuel = [] :=
      fun fuel => if_pos ⟨hstop.1, tcpOptionLen_of_lt hstop.2⟩
    simp only [hreads]
    exact iff_of_true (fun fuel x hx => nomatch hx) (.inl hstop)
  · have hgo : ¬(caller = .processSent ∧ 40 < tcpOptionLen thOff) := by
      rintro ⟨hcaller, hlen⟩
      have hle : 5 ≤ thOff := by
        by_contra hlt
        exact hstop ⟨hcaller, by omega⟩
      rw [tcpOptionLen_of_le hle hoff] at hlen
      omega
    have hreads : ∀ fuel, callerReads caller conn opts thOff fuel =
        parseReads (if caller = .processAcks then some conn else none) opts (tcpOptionLen thOff)
          fuel 0 := fun fuel => if_neg hgo
    simp only [hreads]
    rw [or_iff_right hstop]
    generalize (if caller = .processAcks then some conn else none) = tmpConn
    constructor
    · intro h
      -- the first test reads the first byte, whether there are options or not
      have hfirst := h 0 0 ((mem_parseReads_iff 0 0).mpr (.inl rfl))
      have hlen : 6 ≤ thOff := by omega
      rw [tcpOptionLen_of_le (by omega) hoff] at h
      refine ⟨hlen, ?_⟩
      rintro o ⟨⟨k, hk⟩, henters⟩
      rw [← optionReads_inside_iff henters.2]
      intro x hx
      have hx' := h (k + 1) x
        ((mem_parseReads_iff (k + 1) 0).mpr (.inr ⟨k, Nat.lt_succ_self k, o, hk, henters, hx⟩))
      omega
    · rintro ⟨hlen, hfits⟩ fuel x hx
      rw [tcpOptionLen_of_le (by omega) hoff] at hx
      rcases (mem_parseReads_iff fuel 0).mp hx with rfl | ⟨k, -, o, hk, henters, hx⟩
      · omega
      · have hx' := (optionReads_inside_iff henters.2).mpr (hfits o ⟨⟨k, hk⟩, henters⟩) x hx
        omega

/-- A word of NOPs is read up to its end only. -/
theorem callerReads_inside_iff_nops :
    6 < 16 ∧ ∀ fuel, ∀ x ∈ callerReads .processAcks ⟨0, 0, 0⟩ (fun _ => 1) 6 fuel,
      (x : ℤ) < (6 : ℕ) * 4 - 20 :=
  ⟨by decide, (callerReads_inside_iff (by decide) .processAcks ⟨0, 0, 0⟩ fun _ => 1).mpr
    (.inr ⟨by decide, fun _ _ => .inr (.inl rfl)⟩)⟩

/-- A header without options: the byte behind it is read. -/
theorem callerReads_past_header :
    0 ∈ callerReads .processRecvd ⟨0, 0, 0⟩ (fun _ => 0) 5 0 ∧
      ¬∀ caller conn opts thOff, thOff < 16 →
        ∀ fuel, ∀ x ∈ callerReads caller conn opts thOff fuel, (x : ℤ) < thOff * 4 - 20 := by
  have hmem : 0 ∈ callerReads .processRecvd ⟨0, 0, 0⟩ (fun _ => 0) 5 0 := by decide
  refine ⟨hmem, fun h => ?_⟩
  have hlt := h .processRecvd ⟨0, 0, 0⟩ (fun _ => 0) 5 (by decide) 0 0 hmem
  exact absurd hlt (by decide)

end Dump

end AnalyseTCP
