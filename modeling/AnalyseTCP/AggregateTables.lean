import AnalyseTCP.Aggregates
import Mathlib.Data.List.GetD
import Mathlib.Data.List.MinMax

/-!
# The tables of retransmissions and dupacks

Entry `i` counts the ranges with more than `i` retransmissions, or dupacks.  `printStatistics` adds
the tables of the connections up entry by entry, and `printBytesLatencyStats` prints next to each
entry the sum of the entries from it on.
-/

namespace AnalyseTCP

/-- A table of `counts`: each one is in all entries below it. -/
structure Tallies (v counts : List ℕ) : Prop where
  length : v.length = counts.foldr max 0
  entries : ∀ i, v.getD i 0 = counts.countP fun n => decide (i < n)

section Tables

variable {v w counts counts' : List ℕ}

theorem tallies_nil : Tallies [] [] := ⟨rfl, fun _ => rfl⟩

theorem length_countTo (v : List ℕ) (n : ℕ) :
    (RangeManager.countTo v n).length = max v.length n := by
  unfold RangeManager.countTo
  induction n with
  | zero => exact (Nat.max_zero _).symm
  | succ n ih =>
      rw [List.range_succ, List.foldl_append, List.foldl_cons, List.foldl_nil, Buckets.length_bump,
        ih]
      omega

theorem getD_countTo (v : List ℕ) (n i : ℕ) :
    (RangeManager.countTo v n).getD i 0 = v.getD i 0 + if i < n then 1 else 0 := by
  unfold RangeManager.countTo
  induction n with
  | zero => rfl
  | succ n ih =>
      rw [List.range_succ, List.foldl_append, List.foldl_cons, List.foldl_nil, Buckets.getD_bump]
      by_cases hin : n = i
      · rw [if_pos hin, ih, if_neg (by omega), if_pos (by omega)]
      · rw [if_neg hin, ih]
        congr 1
        by_cases hlt : i < n
        · rw [if_pos hlt, if_pos (by omega)]
        · rw [if_neg hlt, if_neg (by omega)]

/-- One more range. -/
theorem Tallies.countTo (h : Tallies v counts) (n : ℕ) :
    Tallies (RangeManager.countTo v n) (n :: counts) where
  length := by
    rw [length_countTo, h.length, List.foldr_cons, max_comm]
  entries i := by
    rw [getD_countTo, h.entries, List.countP_cons]
    simp only [decide_eq_true_eq]

theorem Tallies.foldl_countTo (h : Tallies v counts) (ns : List ℕ) :
    Tallies (ns.foldl RangeManager.countTo v) (ns.reverse ++ counts) := by
  induction ns generalizing v counts with
  | nil => exact h
  | cons n ns ih =>
      rw [List.foldl_cons, List.reverse_cons, List.append_assoc]
      exact ih (h.countTo n)

theorem Tallies.of_perm (h : Tallies v counts) (hperm : counts.Perm counts') :
    Tallies v counts' where
  length := h.length.trans (hperm.foldr_op_eq)
  entries i := (h.entries i).trans (hperm.countP_eq _)

/-- The table of all ranges of a connection. -/
theorem tallies_foldl_countTo (ns : List ℕ) : Tallies (ns.foldl RangeManager.countTo []) ns := by
  have h := tallies_nil.foldl_countTo ns
  rw [List.append_nil] at h
  exact h.of_perm ns.reverse_perm

theorem addTable_spec (v w : List ℕ) : (addTable v w).length = max v.length w.length ∧
    ∀ i, (addTable v w).getD i 0 = v.getD i 0 + w.getD i 0 := by
  have hgrow := Buckets.length_grow 0 v w.length
  obtain ⟨hlength, hentries⟩ := Buckets.foldl_modify 0 (fun i x => x + w.getD i 0)
    (Buckets.grow 0 v w.length) (k := w.length) (by omega)
  refine ⟨hlength.trans hgrow, fun i => (hentries i).trans ?_⟩
  rw [Buckets.getD_grow]
  by_cases hi : i < w.length
  · rw [if_pos hi]
  · rw [if_neg hi, List.getD_eq_default w 0 (Nat.le_of_not_lt hi), add_zero]

/-- The table of the ranges of two connections. -/
theorem Tallies.addTable (h : Tallies v counts) (h' : Tallies w counts') :
    Tallies (addTable v w) (counts ++ counts') where
  length := by
    have hmax : ∀ l, counts.foldr max (max 0 l) = max (counts.foldr max 0) l :=
      fun _ => List.foldr_assoc
    rw [(addTable_spec v w).1, h.length, h'.length, List.foldr_append, ← hmax, Nat.zero_max]
  entries i := by
    rw [(addTable_spec v w).2, h.entries, h'.entries, List.countP_append]

/-- No entry is zero. -/
theorem Tallies.pos (h : Tallies v counts) : ∀ x ∈ v, 0 < x := by
  intro x hx
  obtain ⟨i, hi, rfl⟩ := List.mem_iff_getElem.mp hx
  have hentry := h.entries i
  rw [List.getD_eq_getElem _ _ hi] at hentry
  rw [hentry, List.countP_pos_iff]
  -- one of the counts is the length of the table
  rw [h.length] at hi
  clear hx hentry h
  induction counts with
  | nil => exact absurd hi (Nat.not_lt_zero i)
  | cons n counts ih =>
      rcases lt_max_iff.mp hi with hn | hrest
      · exact ⟨n, List.mem_cons_self, decide_eq_true hn⟩
      · obtain ⟨n', hmem, hn'⟩ := ih hrest
        exact ⟨n', List.mem_cons_of_mem _ hmem, hn'⟩

theorem accumed_spec (v : List ℕ) (i : ℕ) : (accumed v).getD i 0 = (v.drop i).sum := by
  have hloop : ∀ v : List ℕ, (v.foldr (fun x (p : ℕ × List ℕ) => (x + p.1, (x + p.1) :: p.2))
      (0, [])).1 = v.sum ∧ ∀ i, (v.foldr (fun x (p : ℕ × List ℕ) =>
        (x + p.1, (x + p.1) :: p.2)) (0, [])).2.getD i 0 = (v.drop i).sum := by
    intro v
    induction v with
    | nil => exact ⟨rfl, fun i => by simp⟩
    | cons x v ih =>
        rw [List.foldr_cons, List.sum_cons, ih.1]
        refine ⟨rfl, fun i => ?_⟩
        cases i with
        | zero => rw [List.getD_cons_zero, List.drop_zero, List.sum_cons]
        | succ i => exact ih.2 i
  exact (hloop v).2 i

/-- The accumulated entries: how far each count is above the index. -/
theorem Tallies.accumed (h : Tallies v counts) (i : ℕ) :
    (accumed v).getD i 0 = (counts.map (· - i)).sum := by
  rw [accumed_spec]
  -- from the last entry on
  induction hk : v.length - i generalizing i with
  | zero =>
      rw [List.drop_eq_nil_of_le (by omega), List.sum_nil]
      symm
      apply List.sum_eq_zero
      intro x hx
      obtain ⟨n, hn, rfl⟩ := List.mem_map.mp hx
      have hle : n ≤ v.length := by
        rw [h.length]
        exact List.le_max_of_le' 0 hn le_rfl
      omega
  | succ k ih =>
      have hi : i < v.length := by omega
      rw [List.drop_eq_getElem_cons hi, List.sum_cons, ih (i + 1) (by omega),
        ← List.getD_eq_getElem _ 0 hi, h.entries]
      clear h hk ih hi
      induction counts with
      | nil => rfl
      | cons n counts ihc =>
          rw [List.countP_cons, List.map_cons, List.map_cons, List.sum_cons, List.sum_cons, ← ihc]
          by_cases hn : i < n
          · simp only [hn]
            simp
            omega
          · simp [hn]
            omega

/-- The table as it is printed: an entry next to the accumulated one, up to the first zero. -/
structure PrintedTable (v counts : List ℕ) : Prop extends Tallies v counts where
  pos : ∀ x ∈ v, 0 < x
  accumed : ∀ i, (accumed v).getD i 0 = (counts.map (· - i)).sum

theorem Tallies.printedTable (h : Tallies v counts) : PrintedTable v counts :=
  ⟨h, h.pos, h.accumed⟩

end Tables

section Dump

variable {number : String → ℚ} {tokens : List String} {samples : List Samples}
  {outs outs' : List PacketsStats}

theorem aggregated_tables (h : List.Forall₂ (Gathers number tokens) samples outs)
    {a : AggrPacketsStats} {retrans dupacks : List ℕ}
    (hretrans : Tallies a.aggregated.retrans retrans)
    (hdupacks : Tallies a.aggregated.dupacks dupacks) :
    Tallies (outs.foldl AggrPacketsStats.add a).aggregated.retrans
        (retrans ++ samples.flatMap fun s => s.retrans) ∧
      Tallies (outs.foldl AggrPacketsStats.add a).aggregated.dupacks
        (dupacks ++ samples.flatMap fun s => s.dupacks) := by
  induction h generalizing a retrans dupacks with
  | nil =>
      rw [List.flatMap_nil, List.flatMap_nil, List.append_nil, List.append_nil]
      exact ⟨hretrans, hdupacks⟩
  | @cons s out samples outs hgathers _ ih =>
      obtain ⟨rm, iv, hs, hout⟩ := hgathers
      obtain ⟨-, hr, hd⟩ := RangeManager.genStats_made hs hout
      rw [List.foldl_cons, List.flatMap_cons, List.flatMap_cons, ← List.append_assoc,
        ← List.append_assoc]
      apply ih
      · exact hretrans.addTable (hr ▸ tallies_foldl_countTo s.retrans)
      · exact hdupacks.addTable (hd ▸ tallies_foldl_countTo s.dupacks)

/-- The aggregated tables count the ranges of all connections: an entry those that are above its
index, and none is zero; an accumulated entry how far they are above it.  The order of the
connections does not matter. -/
theorem psAggregated_tables (h : List.Forall₂ (Gathers number tokens) samples outs)
    (hperm : outs'.Perm outs) :
    PrintedTable (psAggregated number tokens outs').aggregated.retrans
        (samples.flatMap fun s => s.retrans) ∧
      PrintedTable (psAggregated number tokens outs').aggregated.dupacks
        (samples.flatMap fun s => s.dupacks) := by
  obtain ⟨samples', hperm', hgathers⟩ := exists_gathers_perm h hperm
  obtain ⟨hretrans, hdupacks⟩ := aggregated_tables hgathers
    (a := .init number tokens) tallies_nil tallies_nil
  constructor
  · exact (hretrans.of_perm (hperm'.flatMap_right _)).printedTable
  · exact (hdupacks.of_perm (hperm'.flatMap_right _)).printedTable

theorem psAggregated_tables_resent : ∃ (s : Samples) (out : PacketsStats),
    Gathers (fun _ => 0) [] s out ∧ s.retrans ≠ [] ∧
    PrintedTable (psAggregated (fun _ => 0) [] [out, out]).aggregated.retrans
        ([s, s].flatMap fun s => s.retrans) ∧
      PrintedTable (psAggregated (fun _ => 0) [] [out, out]).aggregated.dupacks
        ([s, s].flatMap fun s => s.dupacks) := by
  obtain ⟨s, out, hgathers, -, -, hretrans⟩ := exists_gathers_resent
  exact ⟨s, out, hgathers, hretrans,
    psAggregated_tables (.cons hgathers (.cons hgathers .nil)) (.refl [out, out])⟩

end Dump

end AnalyseTCP
