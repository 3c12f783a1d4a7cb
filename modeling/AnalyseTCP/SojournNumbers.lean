import AnalyseTCP.TracedConnection
import AnalyseTCP.SequenceNumbers

/-!
# The sequence numbers of sojourn lines

The reference for sojourn lines is the number 0 at the position 0, whatever the initial sequence
number, and nothing moves it.  So `wrapIndex` starts one above `firstSeq` and the code adds the
number itself, or its distance to `2 ^ 32` with a negative sign from `2 ^ 31` on.
-/

namespace AnalyseTCP

section Unwrap

variable {seq firstSeq : ℕ}

/-- The branch that the comparison with the reference 0 selects. -/
theorem getRelativeSequenceNumber_zero (hseq : seq < 2 ^ 32) (hfirst : firstSeq < 2 ^ 32) :
    getRelativeSequenceNumber seq firstSeq 0 0 =
      relativeFromWrapIndex seq firstSeq
        (if seq < 2 ^ 31 then firstSeq + 1 + seq
          else if 2 ^ 32 ≤ firstSeq + 1 + seq then firstSeq + 1 + seq - 2 ^ 32
          else 2 ^ 64 + firstSeq + 1 + seq - 2 ^ 32) := by
  unfold getRelativeSequenceNumber
  rw [if_neg (Nat.not_lt_zero seq)]
  have hdelta : sub32 seq 0 = seq := by
    unfold sub32
    omega
  by_cases hlow : seq < 2 ^ 31
  · have hafter : afterOrEqual 0 seq = true := by
      unfold afterOrEqual signed32
      rw [hdelta, if_pos hlow]
      exact decide_eq_true (Int.natCast_nonneg seq)
    have hindex : add64 (add64 (add64 firstSeq 0) 1) seq = firstSeq + 1 + seq := by
      unfold add64
      omega
    rw [if_pos hafter, if_pos hlow, hdelta]
    rw [hindex]
  · have hafter : ¬afterOrEqual 0 seq = true := by
      unfold afterOrEqual signed32
      rw [hdelta, if_neg hlow]
      simp only [decide_eq_true_eq]
      omega
    -- before the reference: the distance back to it is subtracted, which may wrap below zero
    have hindex : sub64 (add64 (add64 firstSeq 0) 1) (add32 (sub32 0 seq) 0) =
        if 2 ^ 32 ≤ firstSeq + 1 + seq then firstSeq + 1 + seq - 2 ^ 32
        else 2 ^ 64 + firstSeq + 1 + seq - 2 ^ 32 := by
      unfold sub64 add64 add32 sub32
      split <;> omega
    rw [if_neg hafter, if_neg hlow]
    rw [hindex]

/-- The number is right exactly when it is at or above the initial one and below `2 ^ 31`, or when
the two together reach `2 ^ 32 - 1`. -/
theorem getRelativeSequenceNumber_zero_iff {r : ℕ} (hfirst : firstSeq < 2 ^ 32)
    (hseq : seq < 2 ^ 32 - 1) (hr : r < 2 ^ 31) (hcongr : (firstSeq + r) % 2 ^ 32 = seq) :
    getRelativeSequenceNumber seq firstSeq 0 0 = .ok r ↔
      (firstSeq ≤ seq ∧ seq < 2 ^ 31) ∨ 2 ^ 32 ≤ firstSeq + seq + 1 := by
  rw [getRelativeSequenceNumber_zero (by omega) hfirst]
  unfold relativeFromWrapIndex
  dsimp only
  constructor
  · intro h
    split_ifs at h with hlow hsum hbig
    all_goals have hval := Except.ok.inj h
    all_goals unfold sub64 add64 at hval
    all_goals omega
  · intro h
    have hval : sub64 (add64 seq ((if seq < 2 ^ 31 then firstSeq + 1 + seq
        else if 2 ^ 32 ≤ firstSeq + 1 + seq then firstSeq + 1 + seq - 2 ^ 32
        else 2 ^ 64 + firstSeq + 1 + seq - 2 ^ 32) / 4294967296 * 4294967296)) firstSeq = r := by
      unfold sub64 add64
      split_ifs <;> omega
    rw [hval, if_neg (by omega)]

end Unwrap

namespace TracedConnection

/-- The reference for sojourn lines is that of the constructor. -/
def SojournUnset (conn : TracedConnection) : Prop :=
  conn.lastLargestSojournEndSeq = 0 ∧ conn.lastLargestSojournSeqAbsolute = 0

theorem step_sojournUnset {conn conn' : TracedConnection} {ev : Event} (hinv : conn.SojournUnset)
    (h : conn.step ev = .ok conn') : conn'.SojournUnset := by
  cases ev with
  | sent sd =>
    obtain ⟨sender, -, h⟩ := Run.exists_of_bind_ok h
    obtain rfl := Except.ok.inj h
    exact hinv
  | ack seg =>
    obtain ⟨⟨rm, ret⟩, -, h⟩ := Run.exists_of_bind_ok h
    cases ret with
    | false =>
      obtain rfl := Except.ok.inj h
      exact hinv
    | true =>
      obtain rfl := Except.ok.inj h
      exact hinv
  | recvd sd =>
    obtain ⟨rm, -, h⟩ := Run.exists_of_bind_ok h
    obtain rfl := Except.ok.inj h
    exact hinv

theorem run_sojournUnset {conn conn' : TracedConnection} {evs : List Event}
    (hinv : conn.SojournUnset) (hrun : Run.run step conn evs = .ok conn') : conn'.SojournUnset :=
  Run.invariant (I := fun conn _ => conn.SojournUnset) (d := [])
    (fun _ _ _ _ hinv _ hstep => step_sojournUnset hinv hstep) hinv (Run.steps_true conn evs) hrun

/-- A segment that is numbered `r` when it is sent has the number `r` on a sojourn line exactly
under that condition. -/
theorem run_sojSeq_eq_iff {firstSeq r : ℕ} {conn₀ conn : TracedConnection} {sd : SendData}
    {before after : List Event} (hfirst : firstSeq < 2 ^ 32)
    (hbefore : Run.run step (new firstSeq) before = .ok conn₀)
    (hafter : Run.run step conn₀ (.sent sd :: after) = .ok conn)
    (hisn : conn₀.rm.firstSeq = firstSeq ∧ conn.rm.firstSeq = firstSeq)
    (habs : sd.data.seqAbsolute < 2 ^ 32) (htop : sd.data.seqAbsolute ≠ 2 ^ 32 - 1)
    (hsent : conn₀.getRelativeSequenceNumber sd.data.seqAbsolute .sendOut = .ok r)
    (hshort : r + sd.data.payloadSize < 2 ^ 31) :
    conn.getRelativeSequenceNumber sd.data.seqAbsolute .sojSeq = .ok r ↔
      (firstSeq ≤ sd.data.seqAbsolute ∧ sd.data.seqAbsolute < 2 ^ 31) ∨
        2 ^ 32 ≤ firstSeq + sd.data.seqAbsolute + 1 := by
  have hunset : conn.SojournUnset :=
    run_sojournUnset (run_sojournUnset ⟨rfl, rfl⟩ hbefore) hafter
  have hne : r ≠ ulongMax := by
    unfold ulongMax
    omega
  unfold getRelativeSequenceNumber at hsent ⊢
  dsimp only at hsent ⊢
  rw [hisn.1] at hsent
  obtain ⟨-, hcongr⟩ := getRelativeSequenceNumber_congr hsent hne
  rw [Nat.mod_eq_of_lt habs] at hcongr
  rw [hisn.2, hunset.1, hunset.2]
  exact getRelativeSequenceNumber_zero_iff hfirst (by omega) (by omega) hcongr

/-- A SYN and ten bytes. -/
def synData (firstSeq : ℕ) : List Event :=
  [.sent { data := { seqAbsolute := firstSeq, flags := thSyn } },
    .sent { data := { seqAbsolute := add32 firstSeq 1, payloadSize := 10 } }]

/-- The next ten bytes. -/
def nextTen (firstSeq : ℕ) : SendData :=
  { data := { seqAbsolute := add32 firstSeq 11, payloadSize := 10 } }

/-- The relative numbers of `nextTen` when it is sent and on a sojourn line, with the initial
sequence numbers of the two states. -/
def numbersOf (firstSeq : ℕ) (conn₀ conn : TracedConnection) : ℕ × ℕ × Option ℕ × Option ℕ :=
  (conn₀.rm.firstSeq, conn.rm.firstSeq,
    (conn₀.getRelativeSequenceNumber (nextTen firstSeq).data.seqAbsolute .sendOut).toOption,
    (conn.getRelativeSequenceNumber (nextTen firstSeq).data.seqAbsolute .sojSeq).toOption)

theorem exists_numbersOf (firstSeq : ℕ) {out : ℕ × ℕ × Option ℕ × Option ℕ}
    (h : (Run.run step (new firstSeq) (synData firstSeq)).toOption.any (fun conn₀ =>
      (Run.run step conn₀ [.sent (nextTen firstSeq)]).toOption.any fun conn =>
        decide (numbersOf firstSeq conn₀ conn = out)) = true) :
    ∃ conn₀ conn, Run.run step (new firstSeq) (synData firstSeq) = .ok conn₀ ∧
      Run.run step conn₀ [.sent (nextTen firstSeq)] = .ok conn ∧
      numbersOf firstSeq conn₀ conn = out := by
  obtain ⟨conn₀, hbefore, h⟩ := Run.exists_of_any_toOption h
  obtain ⟨conn, hafter, h⟩ := Run.exists_of_any_toOption h
  exact ⟨conn₀, conn, hbefore, hafter, of_decide_eq_true h⟩

theorem eq_ok_of_toOption {ε : Type} {x : Except ε ℕ} {n : ℕ} (h : x.toOption = some n) :
    x = .ok n := by
  cases x with
  | error e => cases h
  | ok m => exact congrArg _ (Option.some.inj h)

theorem run_sojSeq_eq_iff_thousand :
    ∃ conn : TracedConnection,
      (conn.getRelativeSequenceNumber 1011 .sojSeq = .ok 11 ↔
        (1000 ≤ 1011 ∧ 1011 < 2 ^ 31) ∨ 2 ^ 32 ≤ 1000 + 1011 + 1) := by
  obtain ⟨conn₀, conn, hbefore, hafter, hnum⟩ :
      ∃ conn₀ conn, Run.run step (new 1000) (synData 1000) = .ok conn₀ ∧
        Run.run step conn₀ [.sent (nextTen 1000)] = .ok conn ∧
        numbersOf 1000 conn₀ conn = (1000, 1000, some 11, some 11) :=
    exists_numbersOf 1000 (by decide +kernel)
  simp only [numbersOf, Prod.mk.injEq] at hnum
  have hiff : conn.getRelativeSequenceNumber (nextTen 1000).data.seqAbsolute .sojSeq = .ok 11 ↔ _ :=
    run_sojSeq_eq_iff (by decide) hbefore hafter ⟨hnum.1, hnum.2.1⟩ (by decide) (by decide)
      (eq_ok_of_toOption hnum.2.2.1) (by decide)
  exact ⟨conn, hiff⟩

/-- With an initial sequence number eleven below `2 ^ 31`, the segment at `2 ^ 31` has the relative
number 11 when it is sent and none on a sojourn line. -/
theorem sojSeq_fails_across_half :
    ∃ conn₀ conn : TracedConnection,
      Run.run step (new 2147483637) (synData 2147483637) = .ok conn₀ ∧
      Run.run step conn₀ [.sent (nextTen 2147483637)] = .ok conn ∧
      (conn₀.rm.firstSeq = 2147483637 ∧ conn.rm.firstSeq = 2147483637) ∧
      (nextTen 2147483637).data.seqAbsolute = 2 ^ 31 ∧
      conn₀.getRelativeSequenceNumber (2 ^ 31) .sendOut = .ok 11 ∧
      conn.getRelativeSequenceNumber (2 ^ 31) .sojSeq ≠ .ok 11 := by
  obtain ⟨conn₀, conn, hbefore, hafter, hnum⟩ :
      ∃ conn₀ conn, Run.run step (new 2147483637) (synData 2147483637) = .ok conn₀ ∧
        Run.run step conn₀ [.sent (nextTen 2147483637)] = .ok conn ∧
        numbersOf 2147483637 conn₀ conn = (2147483637, 2147483637, some 11, none) :=
    exists_numbersOf 2147483637 (by decide +kernel)
  simp only [numbersOf, Prod.mk.injEq] at hnum
  refine ⟨conn₀, conn, hbefore, hafter, ⟨hnum.1, hnum.2.1⟩, by decide,
    eq_ok_of_toOption hnum.2.2.1, fun h => ?_⟩
  have hnone := hnum.2.2.2
  rw [show (nextTen 2147483637).data.seqAbsolute = 2 ^ 31 by decide, h] at hnone
  cases hnone

end TracedConnection

end AnalyseTCP
