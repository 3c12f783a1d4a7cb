import AnalyseTCP.AnalyseInterval
import AnalyseTCP.Connection
import AnalyseTCP.Lib.Windows

/-!
# `RangeManager::printPacketDetails`

Which ranges option `-y` lists.  A list of pairs of sequence numbers selects the ranges that start
in one of them, says the usage text; the filter carries the index of a pair from range to range and
moves it by the end of the range.  What is printed for a selected range is left out.
-/

namespace AnalyseTCP

/-- What `seqWithPrintRange` returns, for -1, 0 and 1. -/
inductive PrintChoice
  | quit | skip | print
deriving DecidableEq, Repr

/-- The loop and the test behind it, on the pairs from the index on. -/
def seqWithPrintRangeFrom (start stop : ℕ) : List (ℕ × ℕ) → ℕ → Except Abort (PrintChoice × ℕ)
  | [], _ => .error .outOfRange
  | w :: rest, index =>
      if w.2 < stop then
        -- we are at the last range so we quit printing
        if rest = [] then .ok (.quit, index)
        else seqWithPrintRangeFrom start stop rest (index + 1)
      else .ok (if start < w.1 then .skip else .print, index)

/-- `seqWithPrintRange` with `GlobOpts::print_packets_pairs`: the result and the new index. -/
def seqWithPrintRange (pairs : List (ℕ × ℕ)) (start stop index : ℕ) :
    Except Abort (PrintChoice × ℕ) :=
  seqWithPrintRangeFrom start stop (pairs.drop index) index

/-! ## The option's argument -/

/-- What stands between two commas of the argument of `-y`: `n`, `-n`, `n-` or `m-n`. -/
inductive PrintToken
  | single (num : ℕ)
  | upTo (num : ℕ)
  | startingAt (f1 : ℕ)
  | between (f1 f2 : ℕ)
deriving DecidableEq, Repr

/-- `parse_print_packets` on its tokens, from a value of `last_range_seq` on; how a token's numbers
are read is left out. -/
def parsePrintPackets : ℕ → List PrintToken → List (ℕ × ℕ)
  | _, [] => []
  | lastRangeSeq, .single num :: tokens => (num, num) :: parsePrintPackets lastRangeSeq tokens
  | lastRangeSeq, .upTo num :: tokens =>
      (lastRangeSeq, num) :: parsePrintPackets (add64 num 1) tokens
  | lastRangeSeq, .startingAt f1 :: tokens =>
      (f1, ulongMax) :: parsePrintPackets lastRangeSeq tokens
  | _, .between f1 f2 :: tokens => (f1, f2) :: parsePrintPackets (add64 f2 1) tokens

/-- The packets that the usage text promises for a token. -/
def PrintToken.Documented (seq : ℕ) : PrintToken → Prop
  | .single num => seq = num
  | .upTo num => seq ≤ num
  | .startingAt f1 => f1 ≤ seq
  | .between f1 f2 => f1 ≤ seq ∧ seq ≤ f2

/-- `-n` behind another token goes on from that one's end. -/
def PrintToken.isUpTo : PrintToken → Bool
  | .upTo _ => true
  | _ => false

namespace RangeManager

/-- The loop of `printPacketDetails` from an index on: the ranges it lists. -/
def printLoop (pairs : List (ℕ × ℕ)) : ℕ → List ByteRange → Except Abort (List ByteRange)
  | _, [] => .ok []
  | index, r :: l =>
      if r.sojournTime then printLoop pairs index l
      else if pairs = [] then do
        let printed ← printLoop pairs index l
        return r :: printed
      else do
        let (choice, index) ← seqWithPrintRange pairs r.startSeq r.endSeq index
        match choice with
        | .quit => return []
        | .skip => printLoop pairs index l
        | .print => do
            let printed ← printLoop pairs index l
            return r :: printed

/-- The call on the analysed interval. -/
def printPacketDetails (rm : RangeManager) (pairs : List (ℕ × ℕ)) (iv : AnalyseRange) :
    Except Abort (List ByteRange) := do
  let analysed ← rm.analysedRanges iv
  printLoop pairs 0 (analysed.map Prod.snd)

end RangeManager

section Documentation

variable {seq : ℕ} {tokens : List PrintToken}

/-- The number is in one of the pairs. -/
abbrev inPairs (pairs : List (ℕ × ℕ)) (seq : ℕ) : Prop := ∃ w ∈ pairs, w.1 ≤ seq ∧ seq ≤ w.2

theorem inPairs_cons {w : ℕ × ℕ} {pairs : List (ℕ × ℕ)} :
    inPairs (w :: pairs) seq ↔ (w.1 ≤ seq ∧ seq ≤ w.2) ∨ inPairs pairs seq :=
  List.exists_mem_cons_iff _ w pairs

theorem inPairs_parsePrintPackets (hseq : seq ≤ ulongMax) (lastRangeSeq : ℕ)
    (htokens : ∀ t ∈ tokens, t.isUpTo = false) :
    inPairs (parsePrintPackets lastRangeSeq tokens) seq ↔ ∃ t ∈ tokens, t.Documented seq := by
  induction tokens generalizing lastRangeSeq with
  | nil => exact iff_of_false (fun ⟨_, h, _⟩ => nomatch h) fun ⟨_, h, _⟩ => nomatch h
  | cons t tokens ih =>
      obtain ⟨hfirst, hrest⟩ := List.forall_mem_cons.mp htokens
      rw [List.exists_mem_cons_iff]
      cases t with
      | single num =>
          rw [parsePrintPackets, inPairs_cons, ih lastRangeSeq hrest]
          exact or_congr_left (by simp only [PrintToken.Documented]; omega)
      | upTo num => cases hfirst
      | startingAt f1 =>
          rw [parsePrintPackets, inPairs_cons, ih lastRangeSeq hrest]
          exact or_congr_left (and_iff_left hseq)
      | between f1 f2 =>
          rw [parsePrintPackets, inPairs_cons, ih _ hrest]
          rfl

/-- The pairs of an argument are the documented packets, if `-n` stands at its start at most. -/
theorem inPairs_argument (hseq : seq ≤ ulongMax) {t : PrintToken}
    (htokens : ∀ t ∈ tokens, t.isUpTo = false) :
    inPairs (parsePrintPackets 0 (t :: tokens)) seq ↔ ∃ u ∈ t :: tokens, u.Documented seq := by
  cases t with
  | upTo num =>
      rw [parsePrintPackets, inPairs_cons, inPairs_parsePrintPackets hseq _ htokens,
        List.exists_mem_cons_iff]
      exact or_congr_left (and_iff_right (Nat.zero_le seq))
  | single num =>
      apply inPairs_parsePrintPackets hseq
      exact List.forall_mem_cons.mpr ⟨rfl, htokens⟩
  | startingAt f1 =>
      apply inPairs_parsePrintPackets hseq
      exact List.forall_mem_cons.mpr ⟨rfl, htokens⟩
  | between f1 f2 =>
      apply inPairs_parsePrintPackets hseq
      exact List.forall_mem_cons.mpr ⟨rfl, htokens⟩

/-- So `ListsDocumented` below is about the packets that the usage text promises. -/
theorem wanted_argument {r : ByteRange} (hseq : r.startSeq ≤ ulongMax) {t : PrintToken}
    (htokens : ∀ t ∈ tokens, t.isUpTo = false) :
    Windows.wanted ByteRange.startSeq (parsePrintPackets 0 (t :: tokens)) r = true ↔
      ∃ u ∈ t :: tokens, u.Documented r.startSeq := by
  rw [Windows.wanted_iff]
  exact inPairs_argument hseq htokens

end Documentation

section

variable {pairs ws : List (ℕ × ℕ)} {r : ByteRange} {l : List ByteRange}

/-- The ranges that a sweep of the pairs selects. -/
abbrev sweepRanges : List (ℕ × ℕ) → List ByteRange → List ByteRange :=
  Windows.sweep ByteRange.startSeq ByteRange.endSeq

/-- What one call does to the sweep of the pairs from the index on: it leaves the pairs that end
below the range, and decides by the first one that does not. -/
theorem seqWithPrintRangeFrom_sweepRanges (hne : ws ≠ []) (index : ℕ) :
    (∃ index', seqWithPrintRangeFrom r.startSeq r.endSeq ws index = .ok (.quit, index') ∧
        ∀ l, sweepRanges ws (r :: l) = []) ∨
      ∃ k w rest, ws.drop k = w :: rest ∧
        seqWithPrintRangeFrom r.startSeq r.endSeq ws index =
          .ok (if r.startSeq < w.1 then .skip else .print, index + k) ∧
        ∀ l, sweepRanges ws (r :: l) =
          if r.startSeq < w.1 then sweepRanges (w :: rest) l else r :: sweepRanges (w :: rest) l := by
  induction ws generalizing index with
  | nil => exact absurd rfl hne
  | cons w rest ih =>
      unfold seqWithPrintRangeFrom
      by_cases hlt : w.2 < r.endSeq
      · rw [if_pos hlt]
        have hsweep : ∀ l, sweepRanges (w :: rest) (r :: l) = sweepRanges rest (r :: l) :=
          fun l => Windows.sweep_cons_of_lt hlt
        by_cases hlast : rest = []
        · rw [if_pos hlast]
          refine .inl ⟨index, rfl, fun l => ?_⟩
          rw [hsweep, hlast]
          rfl
        · rw [if_neg hlast]
          rcases ih hlast (index + 1) with ⟨index', hquit, hnone⟩ | ⟨k, v, vs, hdrop, hret, hsel⟩
          · exact .inl ⟨index', hquit, fun l => (hsweep l).trans (hnone l)⟩
          · refine .inr ⟨k + 1, v, vs, hdrop, ?_, fun l => (hsweep l).trans (hsel l)⟩
            rw [hret, Nat.add_assoc, Nat.add_comm 1 k]
      · rw [if_neg hlt]
        refine .inr ⟨0, w, rest, rfl, rfl, fun l => ?_⟩
        exact Windows.sweep_cons_of_le (not_lt.mp hlt)

/-- The listing skips ranges with a sojourn time. -/
def ByteRange.listable (r : ByteRange) : Bool := !r.sojournTime

theorem ByteRange.listable_iff : r.listable = true ↔ ¬r.sojournTime = true := by
  unfold listable
  cases r.sojournTime with
  | false => decide
  | true => decide

namespace RangeManager

/-- The listing is a sweep of the pairs over the ranges without a sojourn time. -/
theorem printLoop_eq (hne : pairs ≠ []) (index : ℕ) (hindex : pairs.drop index ≠ []) :
    printLoop pairs index l = .ok (sweepRanges (pairs.drop index) (l.filter ByteRange.listable)) := by
  induction l generalizing index with
  | nil => exact congrArg Except.ok (Windows.sweep_nil _).symm
  | cons r l ih =>
      unfold printLoop
      by_cases hsoj : r.sojournTime = true
      · rw [if_pos hsoj, ih index hindex, List.filter_cons_of_neg]
        rw [ByteRange.listable_iff]
        exact not_not_intro hsoj
      · rw [if_neg hsoj, if_neg hne, List.filter_cons_of_pos (ByteRange.listable_iff.mpr hsoj)]
        unfold seqWithPrintRange
        rcases seqWithPrintRangeFrom_sweepRanges (r := r) hindex index with
          ⟨index', hquit, hnone⟩ | ⟨k, w, rest, hdrop, hret, hsel⟩
        · rw [hquit, hnone]
          rfl
        · rw [List.drop_drop] at hdrop
          have hnext := ih (index + k) (by rw [hdrop]; exact List.cons_ne_nil w rest)
          rw [hret, hsel]
          by_cases hlow : r.startSeq < w.1
          · rw [if_pos hlow, if_pos hlow, ← hdrop]
            exact hnext
          · rw [if_neg hlow, if_neg hlow, ← hdrop]
            show (printLoop pairs (index + k) l >>= fun printed => .ok (r :: printed)) = _
            rw [hnext]
            rfl

/-- The visited ranges that the listing does not skip. -/
def listed (analysed : List Entry) : List ByteRange :=
  (analysed.map Prod.snd).filter ByteRange.listable

variable {rm : RangeManager} {iv : AnalyseRange} {analysed : List Entry}

theorem printPacketDetails_eq (hne : pairs ≠ []) (hvisit : rm.analysedRanges iv = .ok analysed) :
    rm.printPacketDetails pairs iv = .ok (sweepRanges pairs (listed analysed)) := by
  unfold printPacketDetails
  rw [hvisit]
  exact printLoop_eq hne 0 hne

theorem listed_le (hwf : WfEntries analysed) : ∀ r ∈ listed analysed, r.startSeq ≤ r.endSeq := by
  intro r hr
  obtain ⟨en, hen, rfl⟩ := List.mem_map.mp (List.mem_of_mem_filter hr)
  exact (hwf en hen).2.le

/-- The map is met in the order of the start sequence numbers. -/
theorem listed_ascending (hwf : WfEntries analysed)
    (hsorted : analysed.Pairwise fun a b => a.1 < b.1) :
    (listed analysed).Pairwise fun r s => r.startSeq < s.startSeq := by
  apply List.Pairwise.filter
  rw [List.pairwise_map]
  apply hsorted.imp_of_mem
  intro a b ha hb hlt
  rwa [(hwf a ha).1, (hwf b hb).1] at hlt

/-- The listing is what the usage text says: the ranges that start in one of the pairs. -/
def ListsDocumented (rm : RangeManager) (pairs : List (ℕ × ℕ)) (iv : AnalyseRange)
    (analysed : List Entry) : Prop :=
  rm.printPacketDetails pairs iv =
    .ok ((listed analysed).filter (Windows.wanted ByteRange.startSeq pairs))

instance (rm : RangeManager) (pairs : List (ℕ × ℕ)) (iv : AnalyseRange) (analysed : List Entry) :
    Decidable (rm.ListsDocumented pairs iv analysed) := inferInstanceAs (Decidable (_ = _))

/-- Whenever a range starts in one of the pairs, it and all ranges before it end in or before that
pair. -/
abbrev EndInside (pairs : List (ℕ × ℕ)) (analysed : List Entry) : Prop :=
  Windows.StaysInside ByteRange.startSeq ByteRange.endSeq pairs (listed analysed)

/-- A range that reaches beyond the pair it starts in is left out, and what follows it there. -/
theorem printPacketDetails_documented_iff (rm : RangeManager) (pairs : List (ℕ × ℕ))
    (iv : AnalyseRange) (analysed : List Entry) (hwf : WfEntries rm.ranges.entries)
    (hvisit : rm.analysedRanges iv = .ok analysed) (hne : pairs ≠ [])
    (hpairs : Windows.Ascending pairs) :
    rm.ListsDocumented pairs iv analysed ↔ EndInside pairs analysed := by
  have hsub := analysedRanges_sublist hvisit
  have hwf' : WfEntries analysed := fun en hen => hwf en (hsub.mem hen)
  unfold ListsDocumented EndInside
  rw [printPacketDetails_eq hne hvisit, ← Windows.sweep_eq_filter_iff hpairs (listed_le hwf')
    (listed_ascending hwf' (rm.ranges.sorted.sublist hsub))]
  exact ⟨Except.ok.inj, congrArg Except.ok⟩

/-- Where no range reaches into a later one, only the range itself counts. -/
theorem endInside_iff_of_separated (hwf : WfEntries analysed)
    (hsorted : analysed.Pairwise fun a b => a.1 < b.1) (hsep : Separated analysed) :
    EndInside pairs analysed ↔ ∀ w ∈ pairs, ∀ r ∈ listed analysed,
      w.1 ≤ r.startSeq → r.startSeq ≤ w.2 → r.endSeq ≤ w.2 := by
  have hends : (listed analysed).Pairwise fun r s => r.endSeq ≤ s.startSeq := by
    apply List.Pairwise.filter
    rw [List.pairwise_map]
    exact hsep
  exact Windows.staysInside_iff_of_apart ((listed_ascending hwf hsorted).and hends)

/-- Packets of ten bytes at 0, 10, 20 and 30, with `-y3-7,20-`. -/
theorem printPacketDetails_documented_iff_open :
    ∃ rm analysed, Run.run insertSentRange (new 0) (tensAt [0, 1, 2, 3]) = .ok rm ∧
      rm.analysedRanges ⟨0, 3, 4, 0, 3⟩ = .ok analysed ∧
      rm.ListsDocumented (parsePrintPackets 0 [.between 3 7, .startingAt 20]) ⟨0, 3, 4, 0, 3⟩
        analysed := by
  have hrun : ∃ rm, Run.run insertSentRange (new 0) (tensAt [0, 1, 2, 3]) = .ok rm ∧
      (decide rm.Apart &&
        (rm.analysedRanges ⟨0, 3, 4, 0, 3⟩).toOption.any fun analysed : List Entry =>
          decide (EndInside (parsePrintPackets 0 [.between 3 7, .startingAt 20]) analysed)) =
        true :=
    Run.exists_of_any_toOption (by decide +kernel)
  obtain ⟨rm, hrm, hok⟩ := hrun
  obtain ⟨hapart, hvisit⟩ := Bool.and_eq_true_iff.mp hok
  obtain ⟨analysed, hanalysed, hend⟩ := Run.exists_of_any_toOption hvisit
  refine ⟨rm, analysed, hrm, hanalysed, ?_⟩
  exact (printPacketDetails_documented_iff rm _ _ analysed (of_decide_eq_true hapart).1 hanalysed
    (by decide) (by decide)).mpr (of_decide_eq_true hend)

/-- The same packets with `-y10`: nothing is listed. -/
theorem printPacketDetails_misses_packet :
    ∃ rm analysed, Run.run insertSentRange (new 0) (tensAt [0, 1, 2, 3]) = .ok rm ∧ rm.Apart ∧
      rm.analysedRanges ⟨0, 3, 4, 0, 3⟩ = .ok analysed ∧
      Windows.Ascending (parsePrintPackets 0 [.single 10]) ∧
      rm.printPacketDetails (parsePrintPackets 0 [.single 10]) ⟨0, 3, 4, 0, 3⟩ = .ok [] ∧
      ¬rm.ListsDocumented (parsePrintPackets 0 [.single 10]) ⟨0, 3, 4, 0, 3⟩ analysed := by
  have hrun : ∃ rm, Run.run insertSentRange (new 0) (tensAt [0, 1, 2, 3]) = .ok rm ∧
      (decide (rm.Apart ∧
          rm.printPacketDetails (parsePrintPackets 0 [.single 10]) ⟨0, 3, 4, 0, 3⟩ = .ok []) &&
        (rm.analysedRanges ⟨0, 3, 4, 0, 3⟩).toOption.any fun analysed : List Entry =>
          decide ¬rm.ListsDocumented (parsePrintPackets 0 [.single 10]) ⟨0, 3, 4, 0, 3⟩
            analysed) = true :=
    Run.exists_of_any_toOption (by decide +kernel)
  obtain ⟨rm, hrm, hok⟩ := hrun
  obtain ⟨hnone, hvisit⟩ := Bool.and_eq_true_iff.mp hok
  obtain ⟨analysed, hanalysed, hnot⟩ := Run.exists_of_any_toOption hvisit
  obtain ⟨hapart, hempty⟩ := of_decide_eq_true hnone
  exact ⟨rm, analysed, hrm, hapart, hanalysed, by decide, hempty, of_decide_eq_true hnot⟩

end RangeManager

end

end AnalyseTCP
