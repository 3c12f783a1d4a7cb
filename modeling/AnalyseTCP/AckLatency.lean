import AnalyseTCP.LossIntervals
import AnalyseTCP.PayloadSamples
import AnalyseTCP.Lib.Buckets
import Mathlib.Data.List.GetD

/-!
# ACK latencies

`genAckLatencyData` makes an item of each analysed range that has a latency.  All items of a
connection go to its first file, and those of ranges that were retransmitted also to the file for
their number of retransmissions.  `AckLatencyWriter` appends the files of each connection to the
aggregated ones.
-/

namespace AnalyseTCP

structure LatencyItem where
  timeMs : ℤ
  latencyMs : ℤ
  streamId : String
deriving DecidableEq

/-- One item for each time in the files, by its number of retransmissions. -/
abbrev DiffTimes := List (List LatencyItem)

/-- What the loop does with an item. -/
def DiffTimes.add (diffTimes : DiffTimes) (numRetr : ℕ) (item : LatencyItem) : DiffTimes :=
  -- `update_vectors_size`
  let v := if diffTimes.length ≤ numRetr then Buckets.grow [] diffTimes (numRetr + 1) else diffTimes
  let v := v.modify 0 (· ++ [item])
  if numRetr = 0 then v else v.modify numRetr (· ++ [item])

namespace RangeManager

/-- The body of the loop over the analysed ranges. -/
def ackLatencyRange (firstTstamp : ℤ) (connKey : String) (diffTimes : DiffTimes) (r : ByteRange) :
    Except Abort DiffTimes := do
  let ackTimeUs ← r.getSendAckTimeDiff
  if 0 < ackTimeUs then
    return diffTimes.add r.packetRetransCount.val
      { timeMs := signed32 ((tvToMs r.firstSend - firstTstamp) % 2 ^ 32).toNat
        latencyMs := ackTimeUs / 1000
        streamId := connKey }
  else return diffTimes

def genAckLatencyData (rm : RangeManager) (iv : AnalyseRange) (firstTstamp : ℤ)
    (diffTimes : DiffTimes) (connKey : String) : Except Abort DiffTimes := do
  let analysed ← rm.analysedRanges iv
  Run.run (fun v en => ackLatencyRange firstTstamp connKey v en.2) diffTimes analysed

end RangeManager

/-- What the writer reads of a connection. -/
structure WrittenConn where
  connKey : String
  rm : RangeManager
  iv : AnalyseRange

/-- The writer, and the files it has written under the key that is part of their names. -/
structure AckLatencyWriter where
  firstTstamp : ℤ
  aggrDiffTimes : DiffTimes := []
  written : List (String × DiffTimes) := []

/-- The loop that inserts the items of a connection behind those that are there. -/
def DiffTimes.append (aggr diffTimes : DiffTimes) : DiffTimes :=
  (List.range diffTimes.length).foldl (fun v i => v.modify i (· ++ diffTimes.getD i []))
    (if aggr.length < diffTimes.length then Buckets.grow [] aggr diffTimes.length else aggr)

namespace AckLatencyWriter

variable (aggregate aggOnly : Bool)

def writeStats (w : AckLatencyWriter) (conn : WrittenConn) : Except Abort AckLatencyWriter := do
  let diffTimes ← conn.rm.genAckLatencyData conn.iv w.firstTstamp [] conn.connKey
  return { w with
    written := if aggOnly then w.written else w.written ++ [(conn.connKey, diffTimes)]
    aggrDiffTimes :=
      if aggregate then DiffTimes.append w.aggrDiffTimes diffTimes else w.aggrDiffTimes }

/-- `end()`. -/
def finish (w : AckLatencyWriter) : AckLatencyWriter :=
  { w with written := w.written ++ [("aggr", w.aggrDiffTimes)] }

end AckLatencyWriter

/-- `writeAckLatency`, through `writeStatisticsFiles`. -/
def writeAckLatency (aggregate aggOnly : Bool) (firstTstamp : ℤ) (conns : List WrittenConn) :
    Except Abort AckLatencyWriter := do
  let w ← Run.run (AckLatencyWriter.writeStats aggregate aggOnly) { firstTstamp := firstTstamp } conns
  return w.finish

/-! ## What the files hold -/

/-- The files of `items`, each with its number of retransmissions. -/
structure Filed (files : DiffTimes) (items : List (ℕ × LatencyItem)) : Prop where
  length : files.length = items.foldr (fun p n => max (p.1 + 1) n) 0
  all : files.getD 0 [] = items.map Prod.snd
  retr : ∀ k, k ≠ 0 → files.getD k [] = (items.filter fun p => p.1 = k).map Prod.snd

section Files

variable {files files' : DiffTimes} {items items' : List (ℕ × LatencyItem)}

theorem filed_nil : Filed [] [] := ⟨rfl, rfl, fun _ _ => rfl⟩

theorem grow_if (v : DiffTimes) {n : ℕ} {p : Prop} [Decidable p] (hp : p ↔ v.length < n) :
    (if p then Buckets.grow [] v n else v) = Buckets.grow [] v n := by
  by_cases hlt : v.length < n
  · rw [if_pos (hp.mpr hlt)]
  · rw [if_neg (mt hp.mp hlt), Buckets.grow, Nat.sub_eq_zero_of_le (by omega),
      List.replicate_zero, List.append_nil]

theorem add_spec (files : DiffTimes) (n : ℕ) (item : LatencyItem) :
    (files.add n item).length = max files.length (n + 1) ∧
      ∀ k, (files.add n item).getD k [] =
        files.getD k [] ++ if k = 0 ∨ k = n then [item] else [] := by
  have hlength := Buckets.length_grow [] files (n + 1)
  unfold DiffTimes.add
  rw [grow_if files (n := n + 1) (by omega)]
  dsimp only
  rw [← Buckets.bump_of_lt [] (by omega)]
  have hfirst := Buckets.length_bump [] (Buckets.grow [] files (n + 1)) 0 (· ++ [item])
  by_cases hn : n = 0
  · rw [if_pos hn]
    refine ⟨by omega, fun k => ?_⟩
    rw [Buckets.getD_bump, Buckets.getD_grow]
    by_cases hk : 0 = k
    · rw [if_pos hk, if_pos (.inl hk.symm)]
    · rw [if_neg hk, if_neg (by omega), List.append_nil]
  · rw [if_neg hn, ← Buckets.bump_of_lt [] (by omega)]
    constructor
    · rw [Buckets.length_bump, hfirst]
      omega
    · intro k
      rw [Buckets.getD_bump, Buckets.getD_bump, Buckets.getD_grow]
      by_cases hnk : n = k
      · rw [if_pos hnk, if_neg (by omega), if_pos (.inr hnk.symm)]
      · rw [if_neg hnk]
        by_cases hk : 0 = k
        · rw [if_pos hk, if_pos (.inl hk.symm)]
        · rw [if_neg hk, if_neg (by omega), List.append_nil]

theorem append_spec (files files' : DiffTimes) :
    (files.append files').length = max files.length files'.length ∧
      ∀ k, (files.append files').getD k [] = files.getD k [] ++ files'.getD k [] := by
  unfold DiffTimes.append
  rw [grow_if files Iff.rfl]
  have hgrow := Buckets.length_grow [] files files'.length
  obtain ⟨hlength, hfiles⟩ := Buckets.foldl_modify [] (fun k v => v ++ files'.getD k [])
    (Buckets.grow [] files files'.length) (k := files'.length) (by omega)
  refine ⟨hlength.trans hgrow, fun k => (hfiles k).trans ?_⟩
  rw [Buckets.getD_grow]
  by_cases hk : k < files'.length
  · rw [if_pos hk]
  · rw [if_neg hk, List.getD_eq_default files' [] (Nat.le_of_not_lt hk), List.append_nil]

theorem foldr_max_append (items items' : List (ℕ × LatencyItem)) :
    (items ++ items').foldr (fun p n => max (p.1 + 1) n) 0 =
      max (items.foldr (fun p n => max (p.1 + 1) n) 0)
        (items'.foldr (fun p n => max (p.1 + 1) n) 0) := by
  induction items with
  | nil => exact (Nat.zero_max _).symm
  | cons p items ih =>
      rw [List.cons_append, List.foldr_cons, List.foldr_cons, ih, max_assoc]

theorem Filed.add (h : Filed files items) (n : ℕ) (item : LatencyItem) :
    Filed (files.add n item) (items ++ [(n, item)]) := by
  obtain ⟨hlength, hfiles⟩ := add_spec files n item
  constructor
  · rw [hlength, h.length, foldr_max_append]
    rfl
  · rw [hfiles, h.all, if_pos (.inl rfl), List.map_append]
    rfl
  · intro k hk
    rw [hfiles, h.retr k hk, List.filter_append, List.map_append]
    congr 1
    by_cases hkn : n = k
    · rw [if_pos (.inr hkn.symm)]
      simp [hkn]
    · rw [if_neg (by omega)]
      simp [hkn]

/-- The files of two connections. -/
theorem Filed.append (h : Filed files items) (h' : Filed files' items') :
    Filed (files.append files') (items ++ items') := by
  obtain ⟨hlength, hfiles⟩ := append_spec files files'
  constructor
  · rw [hlength, h.length, h'.length, foldr_max_append]
  · rw [hfiles, h.all, h'.all, List.map_append]
  · intro k hk
    rw [hfiles, h.retr k hk, h'.retr k hk, List.filter_append, List.map_append]

end Files

namespace RangeManager

/-- The item of a range, if it has a latency. -/
def ackItem (firstTstamp : ℤ) (connKey : String) (r : ByteRange) : Option (ℕ × LatencyItem) :=
  match r.getSendAckTimeDiff with
  | .error _ => none
  | .ok ackTimeUs =>
      if 0 < ackTimeUs then
        some (r.packetRetransCount.val,
          { timeMs := signed32 ((tvToMs r.firstSend - firstTstamp) % 2 ^ 32).toNat
            latencyMs := ackTimeUs / 1000
            streamId := connKey })
      else none

/-- The items of the analysed ranges, in their order. -/
def ackItems (rm : RangeManager) (iv : AnalyseRange) (firstTstamp : ℤ) (connKey : String) :
    Except Abort (List (ℕ × LatencyItem)) := do
  let analysed ← rm.analysedRanges iv
  return analysed.filterMap fun en => ackItem firstTstamp connKey en.2

variable {firstTstamp : ℤ} {connKey : String} {files files' : DiffTimes}

theorem ackLatencyRange_filed {r : ByteRange} {items : List (ℕ × LatencyItem)}
    (hfiled : Filed files items) (h : ackLatencyRange firstTstamp connKey files r = .ok files') :
    Filed files' (items ++ (ackItem firstTstamp connKey r).toList) := by
  obtain ⟨ackTimeUs, hdiff, h⟩ := Run.exists_of_bind_ok h
  unfold ackItem
  rw [hdiff]
  dsimp only
  by_cases hpos : 0 < ackTimeUs
  · rw [if_pos hpos] at h ⊢
    rw [← Except.ok.inj h]
    exact hfiled.add _ _
  · rw [if_neg hpos] at h ⊢
    rw [← Except.ok.inj h, Option.toList_none, List.append_nil]
    exact hfiled

theorem genAckLatencyData_filed {rm : RangeManager} {iv : AnalyseRange}
    (h : rm.genAckLatencyData iv firstTstamp [] connKey = .ok files) :
    ∃ items, rm.ackItems iv firstTstamp connKey = .ok items ∧ Filed files items := by
  obtain ⟨analysed, hanalysed, h⟩ := Run.exists_of_bind_ok h
  have hfiled : Filed files (([] ++ analysed).filterMap fun en : Entry =>
      ackItem firstTstamp connKey en.2) := by
    refine Run.invariant (I := fun v done => Filed v (done.filterMap fun en : Entry =>
      ackItem firstTstamp connKey en.2)) ?_ filed_nil (Run.steps_true _ _) h
    intro v en v' done hinv _ hstep
    have hnext := ackLatencyRange_filed hinv hstep
    rw [List.filterMap_append]
    cases hitem : ackItem firstTstamp connKey en.2 <;> simpa [hitem] using hnext
  refine ⟨_, ?_, hfiled⟩
  unfold ackItems
  rw [hanalysed]
  rfl

end RangeManager

namespace AckLatencyWriter

variable {aggregate aggOnly : Bool} {w w' : AckLatencyWriter}

/-- What the writer has written and gathered after the connections `conns` with these items. -/
structure Wrote (aggregate aggOnly : Bool) (firstTstamp : ℤ) (w : AckLatencyWriter)
    (conns : List WrittenConn) (items : List (List (ℕ × LatencyItem))) : Prop where
  first : w.firstTstamp = firstTstamp
  found : List.Forall₂ (fun (conn : WrittenConn) is =>
    conn.rm.ackItems conn.iv firstTstamp conn.connKey = .ok is) conns items
  written : List.Forall₂ (fun p (q : String × DiffTimes) => q.1 = p.1.connKey ∧ Filed q.2 p.2)
    (if aggOnly then [] else conns.zip items) w.written
  aggr : Filed w.aggrDiffTimes (if aggregate then items.flatten else [])

theorem writeStats_wrote {firstTstamp : ℤ} {conns : List WrittenConn} {conn : WrittenConn}
    {items : List (List (ℕ × LatencyItem))} (hinv : w.Wrote aggregate aggOnly firstTstamp conns items)
    (h : w.writeStats aggregate aggOnly conn = .ok w') :
    ∃ is, w'.Wrote aggregate aggOnly firstTstamp (conns ++ [conn]) (items ++ [is]) := by
  obtain ⟨diffTimes, hdiff, h⟩ := Run.exists_of_bind_ok h
  obtain rfl := Except.ok.inj h
  rw [hinv.first] at hdiff
  obtain ⟨is, his, hfiled⟩ := RangeManager.genAckLatencyData_filed hdiff
  have hlength := hinv.found.length_eq
  refine ⟨is, hinv.first, List.rel_append hinv.found (.cons his .nil), ?_, ?_⟩
  · cases aggOnly with
    | true => exact hinv.written
    | false =>
        rw [if_neg (by simp), List.zip_append hlength]
        exact List.rel_append hinv.written (.cons ⟨rfl, hfiled⟩ .nil)
  · cases aggregate with
    | false => exact hinv.aggr
    | true =>
        rw [if_pos rfl, List.flatten_append, List.flatten_singleton]
        exact hinv.aggr.append hfiled

end AckLatencyWriter

/-- The loop over the connections, in front of `end()`. -/
theorem exists_wrote {aggregate aggOnly : Bool} {firstTstamp : ℤ} {conns : List WrittenConn}
    {w : AckLatencyWriter} (h : writeAckLatency aggregate aggOnly firstTstamp conns = .ok w) :
    ∃ (w₀ : AckLatencyWriter) (items : List (List (ℕ × LatencyItem))),
      w = w₀.finish ∧ w₀.Wrote aggregate aggOnly firstTstamp conns items := by
  obtain ⟨w₀, hrun, h⟩ := Run.exists_of_bind_ok h
  obtain rfl := Except.ok.inj h
  have hstart : AckLatencyWriter.Wrote aggregate aggOnly firstTstamp
      { firstTstamp := firstTstamp } [] [] := by
    refine ⟨rfl, .nil, ?_, ?_⟩
    · cases aggOnly <;> exact .nil
    · cases aggregate <;> exact filed_nil
  obtain ⟨items, hwrote⟩ := Run.invariant (d := [])
    (I := fun w done => ∃ items, w.Wrote aggregate aggOnly firstTstamp done items)
    (fun _ _ _ _ ⟨_, hinv⟩ _ hstep =>
      let ⟨is, hnext⟩ := AckLatencyWriter.writeStats_wrote hinv hstep
      ⟨_, hnext⟩) ⟨[], hstart⟩ (Run.steps_true _ _) hrun
  exact ⟨w₀, items, rfl, hwrote⟩

/-- Every latency of a connection is written to the connection's first file, and if its range was
retransmitted to the one file for that number of retransmissions; the aggregated files are those of
all connections together. -/
theorem writeAckLatency_wrote {aggregate aggOnly : Bool} {firstTstamp : ℤ}
    {conns : List WrittenConn} {w : AckLatencyWriter}
    (h : writeAckLatency aggregate aggOnly firstTstamp conns = .ok w) :
    ∃ items written aggr, w.written = written ++ [("aggr", aggr)] ∧
      List.Forall₂ (fun (conn : WrittenConn) is =>
        conn.rm.ackItems conn.iv firstTstamp conn.connKey = .ok is) conns items ∧
      List.Forall₂ (fun p (q : String × DiffTimes) => q.1 = p.1.connKey ∧ Filed q.2 p.2)
        (if aggOnly then [] else conns.zip items) written ∧
      Filed aggr (if aggregate then items.flatten else []) := by
  obtain ⟨w₀, items, rfl, -, hfound, hwritten, haggr⟩ := exists_wrote h
  exact ⟨items, w₀.written, w₀.aggrDiffTimes, rfl, hfound, hwritten, haggr⟩

/-- Two connections with a resent segment. -/
theorem writeAckLatency_wrote_resent : ∃ (rm : RangeManager) (w : AckLatencyWriter),
    Run.run RangeManager.senderStep (.new 0) RangeManager.resentSegment = .ok rm ∧
    writeAckLatency true false 10000 [⟨"1", rm, rm.wholeMap⟩, ⟨"2", rm, rm.wholeMap⟩] = .ok w ∧
    (w.written.map fun p => (p.1, p.2.map List.length)) =
      [("1", [3, 1]), ("2", [3, 1]), ("aggr", [6, 2])] ∧
    ∃ items written aggr, w.written = written ++ [("aggr", aggr)] ∧
      List.Forall₂ (fun (conn : WrittenConn) is =>
        conn.rm.ackItems conn.iv 10000 conn.connKey = .ok is)
          [⟨"1", rm, rm.wholeMap⟩, ⟨"2", rm, rm.wholeMap⟩] items ∧
      List.Forall₂ (fun (p : WrittenConn × List (ℕ × LatencyItem)) (q : String × DiffTimes) =>
          q.1 = p.1.connKey ∧ Filed q.2 p.2)
        (if false then [] else
          List.zip [⟨"1", rm, rm.wholeMap⟩, ⟨"2", rm, rm.wholeMap⟩] items) written ∧
      Filed aggr (if true then items.flatten else []) := by
  have hrun : ∃ rm, Run.run RangeManager.senderStep (.new 0) RangeManager.resentSegment = .ok rm ∧
      (writeAckLatency true false 10000
        [⟨"1", rm, rm.wholeMap⟩, ⟨"2", rm, rm.wholeMap⟩]).toOption.any (fun w =>
          decide ((w.written.map fun p => (p.1, p.2.map List.length)) =
            [("1", [3, 1]), ("2", [3, 1]), ("aggr", [6, 2])])) = true :=
    Run.exists_of_any_toOption (by decide +kernel)
  obtain ⟨rm, hrm, hw⟩ := hrun
  obtain ⟨w, hw, hcounts⟩ := Run.exists_of_any_toOption hw
  exact ⟨rm, w, hrm, hw, of_decide_eq_true hcounts, writeAckLatency_wrote hw⟩

end AnalyseTCP
