import AnalyseTCP.Connection

/-!
# Unwrapping sequence numbers

With a consistent reference (`largestSeqAbsolute` is `firstSeq + largestSeq` modulo `2 ^ 32`) all
four branches of `getRelativeSequenceNumber` compute the same `wrapIndex`, one above the true
64-bit position.  The division by `2 ^ 32` then counts one wrap too many exactly for
`seq = 2 ^ 32 - 1`, and the early return compares `seq` with `firstSeq` on the 32-bit circle only.
Whatever the reference, `RangeManager::absolute_seq` takes the returned number back to `seq`.
-/

namespace AnalyseTCP

/-- The signed 32-bit distance from the reference to `seq`. -/
def seqDelta (seq largestSeqAbsolute : ℕ) : ℤ := signed32 (sub32 seq largestSeqAbsolute)

/-- The early return for a segment before the first packet of the trace. -/
def rejectedBeforeFirst (seq firstSeq largestSeqAbsolute : ℕ) : Prop :=
  seq < largestSeqAbsolute ∧ before seq largestSeqAbsolute = true ∧ before seq firstSeq = true

instance (seq firstSeq largestSeqAbsolute : ℕ) :
    Decidable (rejectedBeforeFirst seq firstSeq largestSeqAbsolute) :=
  inferInstanceAs (Decidable (_ ∧ _))

/-- What the division makes of the true position: one wrap too many at the top of the circle. -/
def unwrapBias (seq : ℕ) : ℤ := if seq = 2 ^ 32 - 1 then 2 ^ 32 else 0

section

variable {seq firstSeq largestSeq largestSeqAbsolute : ℕ}

theorem before_iff : before seq largestSeqAbsolute = true ↔ seqDelta seq largestSeqAbsolute < 0 :=
  decide_eq_true_iff

theorem afterOrEqual_iff :
    afterOrEqual largestSeqAbsolute seq = true ↔ 0 ≤ seqDelta seq largestSeqAbsolute :=
  decide_eq_true_iff

/-- The distance is the plain difference up to one turn of the circle. -/
theorem seqDelta_spec (hseq : seq < 2 ^ 32) (habs : largestSeqAbsolute < 2 ^ 32) :
    -2 ^ 31 ≤ seqDelta seq largestSeqAbsolute ∧ seqDelta seq largestSeqAbsolute < 2 ^ 31 ∧
      (seqDelta seq largestSeqAbsolute = seq - largestSeqAbsolute ∨
        seqDelta seq largestSeqAbsolute = seq - largestSeqAbsolute + 2 ^ 32 ∨
        seqDelta seq largestSeqAbsolute = seq - largestSeqAbsolute - 2 ^ 32) := by
  unfold seqDelta signed32 sub32
  split <;> omega

theorem add64_eq_toNat (a b : ℕ) : add64 a b = (((a : ℤ) + b) % 2 ^ 64).toNat := by
  unfold add64
  omega

theorem sub64_eq_toNat (a b : ℕ) : sub64 a b = (((a : ℤ) - b) % 2 ^ 64).toNat := by
  unfold sub64
  omega

/-- `0 - a + b` in 32 bits. -/
theorem neg32_add (a b : ℕ) (ha : a < 2 ^ 32) (hb : b < 2 ^ 32) :
    (add32 (sub32 0 a) b : ℤ) = if a ≤ b then (b : ℤ) - a else b - a + 2 ^ 32 := by
  unfold add32 sub32
  split <;> omega

theorem sub32_of_le (a b : ℕ) (ha : a < 2 ^ 32) (hle : b ≤ a) : (sub32 a b : ℤ) = (a : ℤ) - b := by
  unfold sub32
  omega

/-- Every branch that does not return early adds the signed distance to the reference position. -/
theorem getRelativeSequenceNumber_eq (hseq : seq < 2 ^ 32) (hfirst : firstSeq < 2 ^ 32)
    (habs : largestSeqAbsolute < 2 ^ 32) (hlargest : largestSeq < 2 ^ 63)
    (hrej : ¬rejectedBeforeFirst seq firstSeq largestSeqAbsolute) :
    getRelativeSequenceNumber seq firstSeq largestSeq largestSeqAbsolute =
      relativeFromWrapIndex seq firstSeq
        ((firstSeq + (largestSeq + seqDelta seq largestSeqAbsolute) + 1) % 2 ^ 64).toNat := by
  have hdelta := seqDelta_spec hseq habs
  have hwrap : add64 (add64 firstSeq largestSeq) 1 = firstSeq + largestSeq + 1 := by
    unfold add64
    omega
  unfold getRelativeSequenceNumber
  unfold rejectedBeforeFirst at hrej
  rw [hwrap]
  -- four branches: which number is larger as a plain integer, and whether a wrap lies between
  by_cases hlt : seq < largestSeqAbsolute
  · by_cases hbefore : before seq largestSeqAbsolute = true
    · have hnot : ¬before seq firstSeq = true := fun h => hrej ⟨hlt, hbefore, h⟩
      rw [if_pos hlt, if_pos hbefore, if_neg hnot]
      rw [before_iff] at hbefore
      have hd : (sub32 largestSeqAbsolute seq : ℤ) = -seqDelta seq largestSeqAbsolute := by
        rw [sub32_of_le _ _ habs hlt.le]
        omega
      rw [sub64_eq_toNat, hd]
      congr 3
      omega
    · rw [if_pos hlt, if_neg hbefore]
      -- below the reference as a number but after it on the circle: the stream has wrapped
      rw [before_iff] at hbefore
      have hd : (add32 (sub32 0 largestSeqAbsolute) seq : ℤ) =
          seqDelta seq largestSeqAbsolute := by
        rw [neg32_add _ _ habs hseq, if_neg (by omega)]
        omega
      rw [add64_eq_toNat, hd]
      congr 3
      omega
  · rw [if_neg hlt]
    by_cases hafter : afterOrEqual largestSeqAbsolute seq = true
    · rw [if_pos hafter]
      rw [afterOrEqual_iff] at hafter
      have hd : (sub32 seq largestSeqAbsolute : ℤ) = seqDelta seq largestSeqAbsolute := by
        rw [sub32_of_le _ _ hseq (by omega)]
        omega
      rw [add64_eq_toNat, hd]
      congr 3
      omega
    · rw [if_neg hafter]
      -- above the reference as a number but before it on the circle: it belongs before the wrap
      rw [afterOrEqual_iff] at hafter
      have hd : (add32 (sub32 0 seq) largestSeqAbsolute : ℤ) =
          -seqDelta seq largestSeqAbsolute := by
        rw [neg32_add _ _ hseq habs]
        split <;> omega
      rw [sub64_eq_toNat, hd]
      congr 3
      omega

/-- The common end of the branches, for a stream position `pos` that is congruent to `seq`. -/
theorem relativeFromWrapIndex_eq {pos : ℤ} (hfirst : firstSeq < 2 ^ 32)
    (hcong : ((firstSeq : ℤ) + pos) % 2 ^ 32 = seq) (hlow : -2 ^ 31 ≤ pos)
    (hhigh : pos < 2 ^ 63) :
    relativeFromWrapIndex seq firstSeq ((firstSeq + pos + 1) % 2 ^ 64).toNat =
      if 0 ≤ pos + unwrapBias seq ∧ pos + unwrapBias seq ≤ 9999999999 then
        .ok (pos + unwrapBias seq).toNat
      else .error .sequenceNumber := by
  have hval : (sub64 (add64 seq (((firstSeq + pos + 1) % 2 ^ 64).toNat / 4294967296
      * 4294967296)) firstSeq : ℤ) = (pos + unwrapBias seq) % 2 ^ 64 := by
    unfold sub64 add64 unwrapBias
    split <;> omega
  have hbias : 0 ≤ unwrapBias seq ∧ unwrapBias seq ≤ 2 ^ 32 := by
    unfold unwrapBias
    split <;> omega
  unfold relativeFromWrapIndex
  dsimp only
  split
  · rw [if_neg (by omega)]
  · rw [if_pos (by omega)]
    congr 1
    omega

theorem position_mod (hseq : seq < 2 ^ 32)
    (href : largestSeqAbsolute = (firstSeq + largestSeq) % 2 ^ 32) :
    ((firstSeq : ℤ) + (largestSeq + seqDelta seq largestSeqAbsolute)) % 2 ^ 32 = seq := by
  have hdelta := seqDelta_spec hseq (show largestSeqAbsolute < 2 ^ 32 by omega)
  omega

/-- The value the code returns or asserts on, for a consistent reference. -/
theorem getRelativeSequenceNumber_of_reference (hseq : seq < 2 ^ 32) (hfirst : firstSeq < 2 ^ 32)
    (hlargest : largestSeq < 2 ^ 62)
    (href : largestSeqAbsolute = (firstSeq + largestSeq) % 2 ^ 32)
    (hrej : ¬rejectedBeforeFirst seq firstSeq largestSeqAbsolute) :
    let pos := largestSeq + seqDelta seq largestSeqAbsolute + unwrapBias seq
    getRelativeSequenceNumber seq firstSeq largestSeq largestSeqAbsolute =
      if 0 ≤ pos ∧ pos ≤ 9999999999 then .ok pos.toNat else .error .sequenceNumber := by
  have habs : largestSeqAbsolute < 2 ^ 32 := by omega
  have hdelta := seqDelta_spec hseq habs
  rw [getRelativeSequenceNumber_eq hseq hfirst habs (by omega) hrej]
  exact relativeFromWrapIndex_eq hfirst (position_mod hseq href) (by omega) (by omega)

theorem getRelativeSequenceNumber_of_rejected
    (hrej : rejectedBeforeFirst seq firstSeq largestSeqAbsolute) :
    getRelativeSequenceNumber seq firstSeq largestSeq largestSeqAbsolute = .ok ulongMax := by
  unfold getRelativeSequenceNumber
  dsimp only
  rw [if_pos hrej.1, if_pos hrej.2.1, if_pos hrej.2.2]

/-- The circle's last number is never below the reference, so it is never rejected early. -/
theorem not_rejected_of_top (habs : largestSeqAbsolute < 2 ^ 32) :
    ¬rejectedBeforeFirst (2 ^ 32 - 1) firstSeq largestSeqAbsolute := by
  intro h
  have := h.1
  omega

end

/-- Soundness holds exactly off the top of the circle: for `seq = 2 ^ 32 - 1` the returned position
is `2 ^ 32` too large unless that already exceeds the plausibility limit. -/
theorem getRelativeSequenceNumber_sound_iff (seq firstSeq largestSeq largestSeqAbsolute : ℕ)
    (hseq : seq < 2 ^ 32) (hfirst : firstSeq < 2 ^ 32) (hlargest : largestSeq ≤ 9999999999)
    (href : largestSeqAbsolute = (firstSeq + largestSeq) % 2 ^ 32) :
    (∀ r, getRelativeSequenceNumber seq firstSeq largestSeq largestSeqAbsolute = .ok r →
        r ≠ ulongMax → (r : ℤ) = largestSeq + seqDelta seq largestSeqAbsolute) ↔
      (seq ≠ 2 ^ 32 - 1 ∨
        9999999999 - 2 ^ 32 < (largestSeq : ℤ) + seqDelta seq largestSeqAbsolute) := by
  have habs : largestSeqAbsolute < 2 ^ 32 := by omega
  have hdelta := seqDelta_spec hseq habs
  constructor
  · intro hsound
    by_contra hno
    push Not at hno
    obtain ⟨htop, hlow⟩ := hno
    -- `2 ^ 32 - 1` is never smaller than the reference, so the early return is not taken
    have hrej : ¬rejectedBeforeFirst seq firstSeq largestSeqAbsolute := by
      rw [htop]
      exact not_rejected_of_top habs
    have hval := getRelativeSequenceNumber_of_reference hseq hfirst (by omega) href hrej
    have hbias : unwrapBias seq = 2 ^ 32 := if_pos htop
    simp only [hbias] at hval
    rw [if_pos (by omega)] at hval
    have := hsound _ hval (by unfold ulongMax; omega)
    omega
  · intro hcond r hr hne
    by_cases hrej : rejectedBeforeFirst seq firstSeq largestSeqAbsolute
    · -- the early return yields the sentinel
      rw [getRelativeSequenceNumber_of_rejected hrej] at hr
      exact absurd (Except.ok.inj hr).symm hne
    · have hval := getRelativeSequenceNumber_of_reference hseq hfirst (by omega) href hrej
      rw [hr] at hval
      dsimp only at hval
      split at hval
      · have hr' := Except.ok.inj hval
        have hbias : unwrapBias seq = 0 ∨ unwrapBias seq = 2 ^ 32 ∧ seq = 2 ^ 32 - 1 := by
          unfold unwrapBias
          split <;> simp_all
        omega
      · cases hval

/-- A segment just below a wrap of the stream, seen after the wrap. -/
theorem getRelativeSequenceNumber_sound_after_wrap :
    getRelativeSequenceNumber 4294962347 4286361190 8609844 3738 = .ok 8601157 ∧
      ((∀ r, getRelativeSequenceNumber 4294962347 4286361190 8609844 3738 = .ok r →
          r ≠ ulongMax → (r : ℤ) = (8609844 : ℕ) + seqDelta 4294962347 3738) ↔
        ((4294962347 : ℕ) ≠ 2 ^ 32 - 1 ∨
          9999999999 - 2 ^ 32 < ((8609844 : ℕ) : ℤ) + seqDelta 4294962347 3738)) :=
  ⟨by decide, getRelativeSequenceNumber_sound_iff 4294962347 4286361190 8609844 3738
    (by decide) (by decide) (by decide) (by decide)⟩

/-- The stream stands at its own last number before the wrap, and that number is read again. -/
theorem getRelativeSequenceNumber_unsound_at_top :
    (4294967295 : ℕ) = (4294967000 + 295) % 2 ^ 32 ∧
      ¬∀ r, getRelativeSequenceNumber 4294967295 4294967000 295 4294967295 = .ok r →
        r ≠ ulongMax → (r : ℤ) = (295 : ℕ) + seqDelta 4294967295 4294967295 := by
  refine ⟨by decide, fun hsound => ?_⟩
  have h := hsound 4294967591 (by decide) (by decide)
  exact absurd h (by decide)

/-- Within the plausibility limit, a number fails exactly when the circular comparison with
`firstSeq` rejects it, however far the stream has advanced. -/
theorem getRelativeSequenceNumber_complete_iff (seq firstSeq largestSeq largestSeqAbsolute : ℕ)
    (hseq : seq < 2 ^ 32) (hfirst : firstSeq < 2 ^ 32)
    (href : largestSeqAbsolute = (firstSeq + largestSeq) % 2 ^ 32)
    (hlow : 0 ≤ (largestSeq : ℤ) + seqDelta seq largestSeqAbsolute)
    (hhigh : (largestSeq : ℤ) + seqDelta seq largestSeqAbsolute ≤ 9999999999 - 2 ^ 32) :
    (∃ r, getRelativeSequenceNumber seq firstSeq largestSeq largestSeqAbsolute = .ok r ∧
        r ≠ ulongMax) ↔
      ¬(seq < largestSeqAbsolute ∧ before seq largestSeqAbsolute = true ∧
        before seq firstSeq = true) := by
  have habs : largestSeqAbsolute < 2 ^ 32 := by omega
  have hdelta := seqDelta_spec hseq habs
  constructor
  · rintro ⟨r, hr, hne⟩ hrej
    rw [getRelativeSequenceNumber_of_rejected hrej] at hr
    exact hne (Except.ok.inj hr).symm
  · intro hrej
    have hval := getRelativeSequenceNumber_of_reference hseq hfirst (by omega) href hrej
    have hbias : 0 ≤ unwrapBias seq ∧ unwrapBias seq ≤ 2 ^ 32 := by
      unfold unwrapBias
      split <;> omega
    dsimp only at hval
    rw [if_pos (by omega)] at hval
    exact ⟨_, hval, by unfold ulongMax; omega⟩

theorem getRelativeSequenceNumber_complete_after_wrap :
    (∃ r, getRelativeSequenceNumber 4294962347 4286361190 8609844 3738 = .ok r ∧
        r ≠ ulongMax) ↔
      ¬((4294962347 : ℕ) < 3738 ∧ before 4294962347 3738 = true ∧
        before 4294962347 4286361190 = true) :=
  getRelativeSequenceNumber_complete_iff 4294962347 4286361190 8609844 3738
    (by decide) (by decide) (by decide) (by decide) (by decide)

/-- A retransmission 100 MB behind the end of a 3 GB stream is taken for one that precedes the
first packet. -/
theorem getRelativeSequenceNumber_rejects_retransmission :
    (3000000000 : ℕ) = (0 + 3000000000) % 2 ^ 32 ∧
      (0 ≤ ((3000000000 : ℕ) : ℤ) + seqDelta 2900000000 3000000000 ∧
        ((3000000000 : ℕ) : ℤ) + seqDelta 2900000000 3000000000 ≤ 9999999999 - 2 ^ 32) ∧
      ¬∃ r, getRelativeSequenceNumber 2900000000 0 3000000000 3000000000 = .ok r ∧
        r ≠ ulongMax := by
  refine ⟨by decide, by decide, ?_⟩
  rintro ⟨r, hr, hne⟩
  have hsentinel : getRelativeSequenceNumber 2900000000 0 3000000000 3000000000 = .ok ulongMax := by
    decide
  exact hne (Except.ok.inj (hr.symm.trans hsentinel))

/-! ## Back to absolute numbers -/

/-- Whatever the reference, a number before the trace gives the sentinel and any other one goes
through the common end, for some `wrapIndex`. -/
theorem getRelativeSequenceNumber_cases (seq firstSeq largestSeq largestSeqAbsolute : ℕ) :
    getRelativeSequenceNumber seq firstSeq largestSeq largestSeqAbsolute = .ok ulongMax ∨
      ∃ wrapIndex, getRelativeSequenceNumber seq firstSeq largestSeq largestSeqAbsolute =
        relativeFromWrapIndex seq firstSeq wrapIndex := by
  unfold getRelativeSequenceNumber
  dsimp only
  split
  · split
    · split
      · exact .inl rfl
      · exact .inr ⟨_, rfl⟩
    · exact .inr ⟨_, rfl⟩
  · split
    · exact .inr ⟨_, rfl⟩
    · exact .inr ⟨_, rfl⟩

/-- The common end only adds turns of the circle, in 64-bit arithmetic. -/
theorem relativeFromWrapIndex_congr {seq firstSeq wrapIndex r : ℕ}
    (h : relativeFromWrapIndex seq firstSeq wrapIndex = .ok r) :
    r ≤ 9999999999 ∧ (firstSeq + r) % 2 ^ 32 = seq % 2 ^ 32 := by
  unfold relativeFromWrapIndex at h
  dsimp only at h
  split at h
  · cases h
  · next hlimit =>
      obtain rfl := Except.ok.inj h
      refine ⟨not_lt.mp hlimit, ?_⟩
      unfold sub64 add64
      omega

/-- Whatever the reference, the position returned is congruent to the sequence number read. -/
theorem getRelativeSequenceNumber_congr {seq firstSeq largestSeq largestSeqAbsolute r : ℕ}
    (h : getRelativeSequenceNumber seq firstSeq largestSeq largestSeqAbsolute = .ok r)
    (hne : r ≠ ulongMax) : r ≤ 9999999999 ∧ (firstSeq + r) % 2 ^ 32 = seq % 2 ^ 32 := by
  rcases getRelativeSequenceNumber_cases seq firstSeq largestSeq largestSeqAbsolute with
    hrejected | ⟨wrapIndex, hend⟩
  · rw [h] at hrejected
    exact absurd (Except.ok.inj hrejected) hne
  · rw [h] at hend
    exact relativeFromWrapIndex_congr hend.symm

namespace RangeManager

/-- `absolute_seq`. -/
def absoluteSeq (rm : RangeManager) (seq : ℕ) : ℕ :=
  let wrapIndex := add64 rm.firstSeq seq / 4294967296
  let res := add64 seq rm.firstSeq
  sub64 res (wrapIndex * 4294967296) % 2 ^ 32

theorem absoluteSeq_eq (rm : RangeManager) (seq : ℕ) :
    rm.absoluteSeq seq = (rm.firstSeq + seq) % 2 ^ 32 := by
  unfold absoluteSeq sub64 add64
  dsimp only
  omega

/-- The end of a segment is printed as the header's number plus the payload, on the circle. -/
theorem absoluteSeq_add64 (rm : RangeManager) (seq size : ℕ) :
    rm.absoluteSeq (add64 seq size) = add32 (rm.absoluteSeq seq) size := by
  rw [absoluteSeq_eq, absoluteSeq_eq]
  unfold add64 add32
  omega

/-- The reference need not be consistent. -/
theorem absoluteSeq_getRelativeSequenceNumber (rm : RangeManager)
    (seq largestSeq largestSeqAbsolute r : ℕ) (hseq : seq < 2 ^ 32)
    (hr : getRelativeSequenceNumber seq rm.firstSeq largestSeq largestSeqAbsolute = .ok r)
    (hne : r ≠ ulongMax) : rm.absoluteSeq r = seq := by
  obtain ⟨-, hcongr⟩ := getRelativeSequenceNumber_congr hr hne
  rw [absoluteSeq_eq, hcongr, Nat.mod_eq_of_lt hseq]

/-- A segment just below a wrap of the stream, and a reference that says nothing about it. -/
theorem absoluteSeq_getRelativeSequenceNumber_after_wrap :
    getRelativeSequenceNumber 4294962347 4286361190 8609844 3738 = .ok 8601157 ∧
      (new 4286361190).absoluteSeq 8601157 = 4294962347 ∧
      getRelativeSequenceNumber 5 7 4294967296 4 = .ok 4294967294 ∧
      (new 7).absoluteSeq 4294967294 = 5 := by
  refine ⟨by decide, ?_, by decide, ?_⟩
  · exact absoluteSeq_getRelativeSequenceNumber (new 4286361190) 4294962347 8609844 3738 8601157
      (by decide) (by decide) (by decide)
  · exact absoluteSeq_getRelativeSequenceNumber (new 7) 5 4294967296 4 4294967294
      (by decide) (by decide) (by decide)

end RangeManager

/-- The stream position of every packet that reaches `registerSent` is printed as the header's
number. -/
theorem Dump.absoluteSeq_stampSent {conn : Connection} {sd : SendData} {seq : ℕ}
    (hheader : sd.data.seqAbsolute < 2 ^ 32)
    (hseq : getRelativeSequenceNumber sd.data.seqAbsolute conn.rm.firstSeq conn.lastLargestEndSeq
      conn.lastLargestSeqAbsolute = .ok seq) (hne : seq ≠ ulongMax) :
    conn.rm.absoluteSeq (stampSent sd seq).data.seq = sd.data.seqAbsolute ∧
      conn.rm.absoluteSeq (stampSent sd seq).data.endSeq =
        add32 sd.data.seqAbsolute sd.data.payloadSize := by
  have hback : conn.rm.absoluteSeq seq = sd.data.seqAbsolute :=
    conn.rm.absoluteSeq_getRelativeSequenceNumber _ _ _ _ hheader hseq hne
  refine ⟨hback, ?_⟩
  rw [← hback]
  exact conn.rm.absoluteSeq_add64 seq sd.data.payloadSize

end AnalyseTCP
