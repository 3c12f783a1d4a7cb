import AnalyseTCP.Dump

/-!
# Many connections in one capture

`Dump` keeps its connections in a map and looks one up for every frame.  The map is a store of
components behind keys: what the passes do to a connection is what they would have done to it in a
capture of its frames alone, however the frames of all connections are interleaved.
-/

namespace AnalyseTCP

namespace Dump

variable (nat : NatConfig)

/-! ## The map of connections -/

/-- A frame creates a connection that is not there. -/
def create (c : Captured) : Option TracedConnection := (seqOf c).map TracedConnection.new

/-- A frame on its connection. -/
def connStep (conn : TracedConnection) (c : Captured) : Except Halt TracedConnection :=
  (handle conn c).map Prod.fst

/-- What a frame does to `conns`. -/
def connsStep : OrdMap ConnectionMapKey TracedConnection → Captured →
    Except Halt (OrdMap ConnectionMapKey TracedConnection) :=
  Keyed.step (keyOf nat) create connStep

theorem getConn_eq (d : Dump) (k : ConnectionMapKey) (c : Captured) :
    (d.getConn k (seqOf c)).2 = (d.conns.find? k).or (create c) := by
  unfold getConn create
  cases d.conns.find? k with
  | some conn => rfl
  | none => cases seqOf c <;> rfl

theorem getConn_none {d d' : Dump} {k : ConnectionMapKey} {seq : Option ℕ}
    (h : d.getConn k seq = (d', none)) : d' = d := by
  unfold getConn at h
  split at h
  · cases h
  · split at h
    · exact (Prod.mk.inj h).1.symm
    · cases h

/-- The connection that was looked up, or created, is replaced in the map. -/
def withConn (d : Dump) (k : ConnectionMapKey) (conn : TracedConnection) : Dump :=
  { d with conns := d.conns.put k conn }

theorem setConn_getConn {d d' : Dump} {k : ConnectionMapKey} {seq : Option ℕ}
    {tmpConn : TracedConnection} (h : d.getConn k seq = (d', some tmpConn))
    (conn : TracedConnection) : d'.setConn k conn = d.withConn k conn := by
  have hconns : ∀ m : OrdMap ConnectionMapKey TracedConnection, (∀ k', k' ≠ k →
      m.find? k' = d.conns.find? k') → (m.find? k).isSome = true →
      (m.modify k fun _ => conn) = d.conns.put k conn := by
    intro m hother hself
    apply OrdMap.ext_find?
    intro k'
    rw [OrdMap.find?_put, OrdMap.find?_modify]
    by_cases hk : k' = k
    · rw [if_pos hk, if_pos hk]
      obtain ⟨old, hold⟩ := Option.isSome_iff_exists.mp hself
      rw [hold, Option.map_some]
    · rw [if_neg hk, if_neg hk, hother k' hk]
  unfold getConn at h
  cases hfind : d.conns.find? k with
  | some old =>
      rw [hfind] at h
      obtain rfl := (Prod.mk.inj h).1
      unfold setConn withConn
      rw [hconns d.conns (fun _ _ => rfl) (by rw [hfind]; rfl)]
  | none =>
      rw [hfind] at h
      cases seq with
      | none => cases h
      | some seq =>
          obtain rfl := (Prod.mk.inj h).1
          unfold setConn withConn
          dsimp only
          rw [hconns _ (fun _ hk => OrdMap.find?_insert_of_ne hk)
            (OrdMap.find?_insert_isSome d.conns k _)]

/-- What a step does: nothing to a frame without a connection, and otherwise one connection changes
and the frame is counted or not. -/
theorem step_cases {d d' : Dump} {c : Captured} (h : step nat d c = .ok d') :
    (d.conns.find? (keyOf nat c)).or (create c) = none ∧ d' = d ∨
      ∃ tmpConn conn counted, (d.conns.find? (keyOf nat c)).or (create c) = some tmpConn ∧
        handle tmpConn c = .ok (conn, counted) ∧
        d' = (if counted then (d.withConn (keyOf nat c) conn).count c
          else d.withConn (keyOf nat c) conn) := by
  have hget := getConn_eq d (keyOf nat c) c
  unfold step at h
  cases hpair : d.getConn (keyOf nat c) (seqOf c) with
  | mk d₁ found =>
      rw [hpair] at h hget
      cases found with
      | none =>
          left
          obtain rfl := Except.ok.inj h
          exact ⟨hget.symm, getConn_none hpair⟩
      | some tmpConn =>
          right
          obtain ⟨⟨conn, counted⟩, hhandle, hrest⟩ := Run.exists_of_bind_ok h
          refine ⟨tmpConn, conn, counted, hget.symm, hhandle, ?_⟩
          rw [← setConn_getConn hpair conn]
          exact (Except.ok.inj hrest).symm

theorem count_conns (d : Dump) (c : Captured) (counted : Bool) :
    (if counted then d.count c else d).conns = d.conns := by
  split
  · cases c <;> rfl
  · rfl

/-- The map goes its own way: nothing in the rest of the dump matters to it. -/
theorem connsStep_of_step {d d' : Dump} {c : Captured} (h : step nat d c = .ok d') :
    connsStep nat d.conns c = .ok d'.conns := by
  unfold connsStep Keyed.step
  rcases step_cases nat h with ⟨hnone, rfl⟩ | ⟨tmpConn, conn, counted, hsome, hhandle, rfl⟩
  · rw [hnone]
  · rw [hsome, count_conns]
    dsimp only
    unfold connStep
    rw [hhandle]
    rfl

theorem exists_step {d : Dump} {c : Captured} {m : OrdMap ConnectionMapKey TracedConnection}
    (h : connsStep nat d.conns c = .ok m) : ∃ d', step nat d c = .ok d' := by
  have hget := getConn_eq d (keyOf nat c) c
  unfold connsStep Keyed.step at h
  unfold step
  rw [← hget] at h
  cases hpair : d.getConn (keyOf nat c) (seqOf c) with
  | mk d₁ found =>
      rw [hpair] at h
      cases found with
      | none => exact ⟨d₁, rfl⟩
      | some tmpConn =>
          dsimp only at h ⊢
          unfold connStep at h
          cases hhandle : handle tmpConn c with
          | error e =>
              rw [hhandle] at h
              cases h
          | ok out => exact ⟨_, rfl⟩

/-! ## Runs -/

theorem run_conns {d d' : Dump} {cs : List Captured} (h : Run.run (step nat) d cs = .ok d') :
    Run.run (connsStep nat) d.conns cs = .ok d'.conns :=
  Run.run_map (f := Dump.conns) (fun _ _ _ hstep => connsStep_of_step nat hstep) h

theorem exists_run {d : Dump} {cs : List Captured} {m : OrdMap ConnectionMapKey TracedConnection}
    (h : Run.run (connsStep nat) d.conns cs = .ok m) : ∃ d', Run.run (step nat) d cs = .ok d' := by
  induction cs generalizing d with
  | nil => exact ⟨d, rfl⟩
  | cons c cs ih =>
      obtain ⟨n, hn, hrun⟩ := Run.exists_of_run_cons h
      obtain ⟨d₁, hd₁⟩ := exists_step nat hn
      have hconns := connsStep_of_step nat hd₁
      obtain rfl := Except.ok.inj (hn.symm.trans hconns)
      obtain ⟨d', hd'⟩ := ih hrun
      exact ⟨d', (Run.run_cons_ok hd₁).trans hd'⟩

/-- The frames of one connection. -/
def framesOf (k : ConnectionMapKey) (cs : List Captured) : List Captured :=
  Keyed.inputs (keyOf nat) k cs

theorem exists_run_iff {d : Dump} {cs : List Captured} :
    (∃ d', Run.run (step nat) d cs = .ok d') ↔ ∃ m, Run.run (connsStep nat) d.conns cs = .ok m := by
  constructor
  · rintro ⟨d', h⟩
    exact ⟨_, run_conns nat h⟩
  · rintro ⟨m, h⟩
    exact exists_run nat h

/-- A capture goes through exactly if the frames of each connection alone do, and every connection
ends as they leave it. -/
theorem run_each_connection (cs : List Captured) :
    ((∃ d, Run.run (step nat) {} cs = .ok d) ↔
      ∀ k, ∃ d, Run.run (step nat) {} (framesOf nat k cs) = .ok d) ∧
    ∀ d, Run.run (step nat) {} cs = .ok d → ∀ k alone,
      Run.run (step nat) {} (framesOf nat k cs) = .ok alone →
        alone.conns.find? k = d.conns.find? k ∧ ∀ k', k' ≠ k → alone.conns.find? k' = none := by
  constructor
  · simp only [exists_run_iff]
    exact Keyed.exists_run_iff_each
  · intro d h k alone halone
    obtain ⟨n, hn, hself, hother⟩ := Keyed.run_inputs (run_conns nat h) k
    obtain rfl : n = alone.conns := Except.ok.inj (hn.symm.trans (run_conns nat halone))
    exact ⟨hself, fun k' hk => hother k' hk⟩

/-- The order in which the frames of different connections follow each other does not matter. -/
theorem run_interleaving {cs cs' : List Captured}
    (hsame : ∀ k, framesOf nat k cs = framesOf nat k cs') :
    ((∃ d, Run.run (step nat) {} cs = .ok d) ↔ ∃ d, Run.run (step nat) {} cs' = .ok d) ∧
    ∀ d d', Run.run (step nat) {} cs = .ok d → Run.run (step nat) {} cs' = .ok d' →
      d.conns = d'.conns := by
  constructor
  · rw [exists_run_iff, exists_run_iff]
    constructor
    · rintro ⟨m, hm⟩
      exact ⟨m, Keyed.run_congr hsame hm⟩
    · rintro ⟨m, hm⟩
      exact ⟨m, Keyed.run_congr (fun k => (hsame k).symm) hm⟩
  · intro d d' h h'
    have hconns := Keyed.run_congr hsame (run_conns nat h)
    exact Except.ok.inj (hconns.symm.trans (run_conns nat h'))

/-- A frame behind an Ethernet header whose numbers fit into their last bytes. -/
def shortFrame (ts : Timeval) (src dst seq ack flags : UInt8) (payloadSize : ℕ) : Frame where
  ts := ts
  len := 54 + payloadSize
  linkLayerHeaderSize := 14
  data i := (List.replicate 14 0 ++ 0x45 :: List.replicate 11 0 ++
    [0, 0, 0, src, 0, 0, 0, dst, 0, src, 0, dst, 0, 0, 0, seq, 0, 0, 0, ack, 0x50, flags, 0, 1]).getD
      i 0

/-- Two senders, whose packets are captured alternately. -/
def twoSenders : List Captured :=
  [.sent (shortFrame ⟨5, 0⟩ 1 9 0 0 0x10 10), .sent (shortFrame ⟨6, 0⟩ 2 9 0 0 0x10 20),
    .sent (shortFrame ⟨7, 0⟩ 1 9 10 0 0x10 10), .ack (shortFrame ⟨8, 0⟩ 9 1 0 20 0x10 0)]

/-- One after the other. -/
def senderBySender : List Captured :=
  [.sent (shortFrame ⟨5, 0⟩ 1 9 0 0 0x10 10), .sent (shortFrame ⟨7, 0⟩ 1 9 10 0 0x10 10),
    .ack (shortFrame ⟨8, 0⟩ 9 1 0 20 0x10 0), .sent (shortFrame ⟨6, 0⟩ 2 9 0 0 0x10 20)]

theorem framesOf_twoSenders (k : ConnectionMapKey) :
    framesOf {} k twoSenders = framesOf {} k senderBySender := by
  -- the four frames belong to two connections
  have hkeys : twoSenders.map (keyOf {}) = [⟨0x1000000, 0x9000000, 0x100, 0x900⟩,
      ⟨0x2000000, 0x9000000, 0x200, 0x900⟩, ⟨0x1000000, 0x9000000, 0x100, 0x900⟩,
      ⟨0x1000000, 0x9000000, 0x100, 0x900⟩] := by decide +kernel
  simp only [twoSenders, List.map_cons, List.map_nil, List.cons.injEq, and_true] at hkeys
  obtain ⟨h₁, h₂, h₃, h₄⟩ := hkeys
  simp only [framesOf, Keyed.inputs, twoSenders, senderBySender, List.filter_cons, h₁, h₂, h₃, h₄,
    List.filter_nil, decide_eq_true_eq]
  by_cases hk : (⟨0x1000000, 0x9000000, 0x100, 0x900⟩ : ConnectionMapKey) = k
  · subst hk
    simp
  · simp only [if_neg hk]

theorem run_interleaving_twoSenders :
    (Run.run (step {}) {} twoSenders).toOption.isSome = true ∧
      (((∃ d, Run.run (step {}) {} twoSenders = .ok d) ↔
          ∃ d, Run.run (step {}) {} senderBySender = .ok d) ∧
        ∀ d d', Run.run (step {}) {} twoSenders = .ok d →
          Run.run (step {}) {} senderBySender = .ok d' → d.conns = d'.conns) :=
  ⟨by decide +kernel, run_interleaving {} framesOf_twoSenders⟩

end Dump

end AnalyseTCP
