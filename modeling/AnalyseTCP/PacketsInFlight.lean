import AnalyseTCP.Lib.Sweep
import AnalyseTCP.PayloadSamples
import Mathlib.Data.Int.ModEq

/-!
# Packets in flight

`pifs` is raised for a range with payload and lowered for every range that `last_acked` passes.  The
difference is the number of ranges in flight as long as `last_acked` passes all data ranges that
were acknowledged before a transmission and nothing else: a keep-alive leaves a range without
payload between them, and from then on one packet in flight is missing.
-/

namespace AnalyseTCP

/-! ## The counter -/

theorem toInt16_sub (z k : ℤ) : toInt16 (toInt16 z - k) = toInt16 (z - k) := Int.bmod_sub_bmod

theorem toInt16_add (z k : ℤ) : toInt16 (toInt16 z + k) = toInt16 (z + k) := Int.bmod_add_bmod

/-- The counter holds a natural number exactly when the drift is a whole number of turns and the
number fits. -/
theorem toInt16_add_eq_iff (n : ℕ) (k : ℤ) :
    toInt16 (n + k) = n ↔ (2 ^ 16 : ℤ) ∣ k ∧ n < 2 ^ 15 := by
  unfold toInt16 Int.bmod
  dsimp only
  split <;> omega

/-- The ACK time of an entry, as `genStats` compares it. -/
def ackUs (d : Entry) : ℤ := d.2.ackTime.getUsecs

def ackedBefore (t : ℤ) (d : Entry) : Bool := decide (ackUs d < t)

namespace Flight

variable {base : List Entry} {bounds : List ℤ} {n : ℤ} {f : Flight}

theorem passAcked_eq (t z : ℤ) (l : List Entry) :
    passAcked t (toInt16 z) l =
      ⟨toInt16 (z - (l.takeWhile (ackedBefore t)).length), l.dropWhile (ackedBefore t)⟩ := by
  induction l generalizing z with
  | nil => simp [passAcked]
  | cons d l ih =>
    unfold passAcked
    by_cases hlt : d.2.ackTime.getUsecs < t
    · have hdec : ackedBefore t d = true := decide_eq_true hlt
      rw [if_pos hlt, toInt16_sub, ih, List.takeWhile_cons_of_pos hdec,
        List.dropWhile_cons_of_pos hdec, List.length_cons]
      congr 2
      push_cast
      omega
    · have hdec : ¬ackedBefore t d = true := fun hdec => hlt (of_decide_eq_true hdec)
      rw [if_neg hlt, List.takeWhile_cons_of_neg hdec, List.dropWhile_cons_of_neg hdec]
      simp

/-- Where the sweep is: `last_acked` has started at `base` and was moved to the times `bounds`, and
`pifs` was raised `n` times. -/
structure At (base : List Entry) (bounds : List ℤ) (n : ℤ) (f : Flight) : Prop where
  lastAcked : f.lastAcked = Sweep.ahead ackUs bounds base
  pifs : f.pifs = toInt16 (n - (Sweep.passed ackUs bounds base).length)

theorem At.start (base : List Entry) : At base [] 0 ⟨0, base⟩ where
  lastAcked := (Sweep.ahead_nil ackUs base).symm
  pifs := by
    have hlen := Sweep.length_passed_add ackUs [] base
    rw [Sweep.ahead_nil] at hlen
    have hzero : (Sweep.passed ackUs [] base).length = 0 := by omega
    rw [hzero]
    rfl

theorem At.enter (h : At base bounds n f) (r : ByteRange) :
    At base bounds (n + if r.hasPayload then 1 else 0) (f.enter r) := by
  unfold Flight.enter
  by_cases hdata : r.hasPayload = true
  · rw [if_pos hdata, if_pos hdata]
    refine ⟨h.lastAcked, ?_⟩
    dsimp only
    rw [h.pifs, toInt16_add]
    congr 1
    omega
  · rw [if_neg hdata, if_neg hdata, add_zero]
    exact h

/-- `last_acked` is moved to one more time. -/
theorem At.pass (h : At base bounds n f) (t : ℤ) :
    At base (bounds ++ [t]) n (passAcked t f.pifs f.lastAcked) := by
  have hahead : Sweep.ahead ackUs (bounds ++ [t]) base =
      (Sweep.ahead ackUs bounds base).dropWhile (ackedBefore t) :=
    Sweep.ahead_concat ackUs bounds t base
  rw [h.pifs, passAcked_eq, h.lastAcked]
  refine ⟨hahead.symm, ?_⟩
  -- what was passed now and before is what lies between `base` and `last_acked`
  have hbefore := Sweep.length_passed_add ackUs bounds base
  have hafter := Sweep.length_passed_add ackUs (bounds ++ [t]) base
  have hnow : ((Sweep.ahead ackUs bounds base).takeWhile (ackedBefore t)).length +
      (Sweep.ahead ackUs (bounds ++ [t]) base).length =
        (Sweep.ahead ackUs bounds base).length := by
    rw [hahead, ← List.length_append, List.takeWhile_append_dropWhile]
  dsimp only
  congr 1
  omega

/-- Whether a transmission of `r` moves `last_acked`. -/
def moves (r : ByteRange) (p : Timeval × SentType) : Bool :=
  decide (p.2 = .pkt ∧ r.acked = true)

/-- The times to which the transmissions `ps` of `r` move `last_acked`. -/
def pktTimes (r : ByteRange) (ps : List (Timeval × SentType)) : List ℤ :=
  (ps.filter (moves r)).map fun p => p.1.getUsecs

theorem At.transmit (h : At base bounds n f) (r : ByteRange) (p : Timeval × SentType) :
    At base (bounds ++ pktTimes r [p]) n (f.transmit r p) := by
  unfold Flight.transmit pktTimes
  by_cases hpkt : p.2 = .pkt ∧ r.acked = true
  · have hmoves : moves r p = true := decide_eq_true hpkt
    rw [if_pos hpkt, List.filter_cons_of_pos hmoves]
    exact h.pass p.1.getUsecs
  · have hmoves : ¬moves r p = true := fun hmoves => hpkt (of_decide_eq_true hmoves)
    rw [if_neg hpkt, List.filter_cons_of_neg hmoves]
    exact (List.append_nil bounds).symm ▸ h

theorem At.transmits (h : At base bounds n f) (r : ByteRange) (ps : List (Timeval × SentType)) :
    At base (bounds ++ pktTimes r ps) n (ps.foldl (Flight.transmit r) f) := by
  induction ps generalizing bounds f with
  | nil => exact (List.append_nil bounds).symm ▸ h
  | cons p ps ih =>
    have hcons : pktTimes r (p :: ps) = pktTimes r [p] ++ pktTimes r ps := by
      unfold pktTimes
      rw [← List.map_append, ← List.filter_append, List.singleton_append]
    rw [hcons, ← List.append_assoc]
    exact ih (h.transmit r p)

/-- The times to which the ranges `l` move `last_acked`. -/
def rangeTimes (l : List Entry) : List ℤ := l.flatMap fun d => pktTimes d.2 d.2.sentTstampPcap

theorem At.ranges (h : At base bounds n f) (l : List Entry) :
    At base (bounds ++ rangeTimes l) (n + l.countP fun d => d.2.hasPayload)
      (l.foldl (fun f d => RangeManager.sweepRange f d.2) f) := by
  induction l generalizing bounds n f with
  | nil =>
    unfold rangeTimes
    rw [List.flatMap_nil, List.append_nil, List.countP_nil, Nat.cast_zero, add_zero]
    exact h
  | cons d l ih =>
    have hcount : n + ((d :: l).countP fun d => d.2.hasPayload : ℕ) =
        n + (if d.2.hasPayload then 1 else 0) + (l.countP fun d => d.2.hasPayload : ℕ) := by
      rw [List.countP_cons]
      push_cast
      omega
    have htimes : bounds ++ rangeTimes (d :: l) =
        bounds ++ pktTimes d.2 d.2.sentTstampPcap ++ rangeTimes l := by
      unfold rangeTimes
      rw [List.flatMap_cons, List.append_assoc]
    rw [hcount, htimes]
    exact ih ((h.enter d.2).transmits d.2 d.2.sentTstampPcap)

end Flight

namespace RangeManager

section InFlight

variable {rm : RangeManager} {iv : AnalyseRange} {l : List Entry}

/-- An `ST_PKT` transmission of an acknowledged data range among the analysed ranges. -/
structure PktSent (l : List Entry) where
  pre : List Entry
  e : Entry
  post : List Entry
  before : List (Timeval × SentType)
  tv : Timeval
  after : List (Timeval × SentType)
  cut : l = pre ++ e :: post
  sent : e.2.sentTstampPcap = before ++ (tv, .pkt) :: after
  hasPayload : e.2.hasPayload = true
  acked : e.2.acked = true

namespace PktSent

variable (p : PktSent l)

theorem mem (p : PktSent l) : p.e ∈ l := by
  obtain ⟨pre, e, post, before, tv, after, rfl, -, -, -⟩ := p
  exact List.mem_append_right pre List.mem_cons_self

def time : ℤ := p.tv.getUsecs

/-- Where its record stands among those that `genStats` adds. -/
def slot : ℕ := (p.pre.map fun d => recordCount d.2.sentTstampPcap).sum + recordCount p.before

/-- The data ranges up to this one whose ACK time is not before the transmission. -/
def inFlight : ℕ :=
  (p.pre ++ [p.e]).countP fun d => d.2.hasPayload && !ackedBefore p.time d

/-- The times to which `last_acked` is moved, up to this transmission. -/
def times : List ℤ :=
  Flight.rangeTimes p.pre ++ Flight.pktTimes p.e.2 (p.before ++ [(p.tv, .pkt)])

/-- A data range up to this one whose ACK time is before the transmission. -/
def settled (d : Entry) : Bool := decide (d.1 ≤ p.e.1) && (d.2.hasPayload && ackedBefore p.time d)

/-- The ranges that `last_acked` passes and should not are as many as those that it should pass
and does not, and `int16_t` holds the number of ranges in flight. -/
structure Balanced (rm : RangeManager) (iv : AnalyseRange) : Prop where
  even : ((Sweep.passed ackUs p.times (rm.firstPayload iv l)).countP fun d => !p.settled d) ≡
    (Sweep.ahead ackUs p.times (rm.firstPayload iv l)).countP p.settled [MOD 2 ^ 16]
  fits : p.inFlight < 2 ^ 15

/-- The record of a transmission, as the sweep leaves it. -/
theorem sentRecords_getElem? {r : ByteRange} {next : Option ByteRange} {diff : ℤ} {f : Flight}
    (before : List (Timeval × SentType)) (tv : Timeval) (after : List (Timeval × SentType)) :
    (sentRecords r next diff f (before ++ (tv, SentType.pkt) :: after))[recordCount before]? =
      some
        { sType := .pkt, sendTimeUs := tv.getUsecs, size := r.originalPayloadSize
          sojournTimes := r.getSojournTimes, ackLatencyUsec := some diff
          pifs := ((before ++ [(tv, SentType.pkt)]).foldl (Flight.transmit r) f).pifs } := by
  have hlen := @length_sentRecords r next diff f before
  rw [sentRecords_append, List.getElem?_append_right hlen.le, hlen, Nat.sub_self,
    List.foldl_append]
  rfl

theorem exists_record (bs : PacketsStats) (hl : rm.analysedRanges iv = .ok l)
    (hlatency : ∀ d ∈ l, HasLatency d.2) :
    ∃ st, rm.genSegments iv bs = .ok st ∧ ∀ p : PktSent l,
      ∃ ps, st.bs.packetStats[bs.packetStats.length + p.slot]? = some ps ∧
        ps.sType = .pkt ∧ ps.sendTimeUs = p.time ∧
        ps.pifs = toInt16 ((p.pre.countP fun d => d.2.hasPayload : ℕ) + 1 -
          (Sweep.passed ackUs p.times (rm.firstPayload iv l)).length) := by
  unfold genSegments
  dsimp only
  rw [hl, Run.ok_bind]
  obtain ⟨st, hst, -, hrecords⟩ := genRanges_spec hlatency
  refine ⟨st, hst, fun p => ?_⟩
  obtain ⟨diff, front, back, hstats, hfront⟩ := hrecords p.pre p.e p.post p.cut
  dsimp only at hstats
  have hat := ((Flight.At.start (rm.firstPayload iv l)).ranges p.pre).enter p.e.2
  have hat' := hat.transmits p.e.2 (p.before ++ [(p.tv, .pkt)])
  rw [List.nil_append, zero_add, if_pos p.hasPayload] at hat'
  have hrecord := @sentRecords_getElem? p.e.2 (p.post.head?.map Prod.snd) diff
    ((p.pre.foldl (fun f d => sweepRange f d.2) ⟨0, rm.firstPayload iv l⟩).enter p.e.2)
    p.before p.tv p.after
  rw [← p.sent] at hrecord
  -- the records of `bs` and of the ranges before stand in front
  have hin := (List.getElem?_eq_some_iff.mp hrecord).1
  refine ⟨_, Eq.trans ?_ hrecord, rfl, rfl, hat'.pifs⟩
  unfold slot
  rw [hstats, ← hfront, List.append_assoc, List.append_assoc,
    List.getElem?_append_right (Nat.le_add_right _ _), Nat.add_sub_cancel_left,
    List.getElem?_append_right (Nat.le_add_right _ _), Nat.add_sub_cancel_left,
    List.getElem?_append_left hin]

/-- The ranges before this one, from the first data range on. -/
def swept : List Entry := p.pre.dropWhile fun d => !d.2.hasPayload

/-- What `last_acked` runs over: the ranges up to this one, from the first data range on, and the
ranges behind it in the map. -/
theorem exists_firstPayload (hl : rm.analysedRanges iv = .ok l) :
    ∃ rest, rm.firstPayload iv l = p.swept ++ p.e :: rest ∧
      (∀ d ∈ p.pre, d.1 < p.e.1) ∧ ∀ d ∈ rest, p.e.1 < d.1 := by
  obtain ⟨rest, hrest⟩ := exists_of_visitTo hl
  have hall : rm.ranges.entries.drop iv.analyseRangeStart = p.pre ++ p.e :: (p.post ++ rest) := by
    rw [hrest]
    exact (congrArg (· ++ rest) p.cut).trans (by simp)
  have hsorted : (p.pre ++ p.e :: (p.post ++ rest)).Pairwise fun a b => a.1 < b.1 :=
    hall ▸ rm.ranges.sorted.sublist (List.drop_sublist _ _)
  obtain ⟨-, hback, hfront⟩ := List.pairwise_append.mp hsorted
  refine ⟨p.post ++ rest, ?_, fun d hd => hfront d hd p.e List.mem_cons_self,
    fun d hd => List.rel_of_pairwise_cons hback hd⟩
  have hsome : (l.any fun d => d.2.hasPayload) = true :=
    List.any_eq_true.mpr ⟨p.e, p.mem, p.hasPayload⟩
  unfold firstPayload
  rw [if_pos hsome, hall, Sweep.dropWhile_stop]
  · rfl
  · rw [p.hasPayload]
    exact Bool.false_ne_true

/-- A range behind this one does not count as settled. -/
theorem not_settled_of_lt {d : Entry} (h : p.e.1 < d.1) : ¬p.settled d = true := fun hsettled =>
  absurd (of_decide_eq_true (Bool.and_eq_true_iff.mp hsettled).1) (not_le.mpr h)

/-- All settled ranges are among those that `last_acked` runs over. -/
theorem countP_settled (hl : rm.analysedRanges iv = .ok l) :
    (rm.firstPayload iv l).countP p.settled =
      (p.pre ++ [p.e]).countP fun d => d.2.hasPayload && ackedBefore p.time d := by
  obtain ⟨rest, hrest, hfront, hback⟩ := p.exists_firstPayload hl
  have hzero : rest.countP p.settled = 0 :=
    List.countP_eq_zero.mpr fun d hd => p.not_settled_of_lt (hback d hd)
  have hskip : p.swept.countP p.settled = p.pre.countP p.settled := by
    apply Sweep.countP_dropWhile
    intro d hempty
    unfold settled
    rw [(Bool.not_eq_true' _).mp hempty, Bool.false_and, Bool.and_false]
  rw [hrest, List.append_cons, List.countP_append, List.countP_append, hskip, hzero, add_zero,
    ← List.countP_append]
  apply List.countP_congr
  intro d hd
  have hle : d.1 ≤ p.e.1 := by
    rcases List.mem_append.mp hd with hpre | he
    · exact (hfront d hpre).le
    · rw [List.mem_singleton.mp he]
  unfold settled
  rw [decide_eq_true hle, Bool.true_and]

/-- The counter is the number of ranges in flight, off by the ranges that `last_acked` has missed
and those that it has passed too many. -/
theorem count_eq (hl : rm.analysedRanges iv = .ok l) :
    ((p.pre.countP fun d => d.2.hasPayload : ℕ) : ℤ) + 1 -
        (Sweep.passed ackUs p.times (rm.firstPayload iv l)).length =
      (p.inFlight : ℤ) +
        (((Sweep.ahead ackUs p.times (rm.firstPayload iv l)).countP p.settled : ℕ) -
          ((Sweep.passed ackUs p.times (rm.firstPayload iv l)).countP fun d =>
            !p.settled d : ℕ)) := by
  have hdata : (p.pre.countP fun d => d.2.hasPayload) + 1 =
      p.inFlight + (rm.firstPayload iv l).countP p.settled := by
    have hlast : ((p.pre ++ [p.e]).countP fun d => d.2.hasPayload) =
        (p.pre.countP fun d => d.2.hasPayload) + 1 := by
      rw [List.countP_append, List.countP_singleton, if_pos p.hasPayload]
    -- each data range is settled or in flight
    rw [p.countP_settled hl, ← hlast,
      List.countP_eq_countP_filter_add (p.pre ++ [p.e]) _ fun d => !ackedBefore p.time d,
      List.countP_filter, List.countP_filter]
    unfold inFlight
    simp only [Bool.not_not]
  have hswept := congrArg (List.countP p.settled)
    (Sweep.passed_append_ahead ackUs p.times (rm.firstPayload iv l))
  rw [List.countP_append] at hswept
  have hpassed := List.length_eq_countP_add_countP p.settled
    (l := Sweep.passed ackUs p.times (rm.firstPayload iv l))
  simp only [decide_not, Bool.decide_eq_true] at hpassed
  omega

/-- The transmission is in flight itself. -/
theorem one_le_inFlight (h : p.time ≤ ackUs p.e) : 1 ≤ p.inFlight := by
  apply List.countP_pos_iff.mpr
  refine ⟨p.e, List.mem_append_right p.pre (List.mem_singleton_self p.e), ?_⟩
  unfold ackedBefore
  rw [p.hasPayload, decide_eq_false (not_lt.mpr h)]
  rfl

theorem time_mem_times : p.time ∈ p.times := by
  have hmoves : Flight.moves p.e.2 (p.tv, .pkt) = true := decide_eq_true ⟨rfl, p.acked⟩
  unfold times Flight.pktTimes
  rw [List.filter_append, List.filter_cons_of_pos hmoves, List.map_append]
  apply List.mem_append_right
  apply List.mem_append_right
  exact List.mem_cons_self

/-- The sweep is balanced as long as the ranges from the first data range on all have payload and
were acknowledged in order, and no earlier transmission was later. -/
theorem balanced_of_payload (hl : rm.analysedRanges iv = .ok l)
    (hpayload : ∀ d ∈ p.swept, d.2.hasPayload = true)
    (hacks : p.swept.Pairwise fun a b => ackUs a ≤ ackUs b)
    (hle : p.time ≤ ackUs p.e) (hlast : ∀ t ∈ p.times, t ≤ p.time) (hfits : p.inFlight < 2 ^ 15) :
    p.Balanced rm iv := by
  refine ⟨?_, hfits⟩
  obtain ⟨rest, hrest, hfront, hback⟩ := p.exists_firstPayload hl
  -- `last_acked` has not reached this range, which is acknowledged after all the times
  have hstop : ¬Sweep.below ackUs p.times p.e = true := by
    intro hbelow
    obtain ⟨t, ht, hlt⟩ := List.any_eq_true.mp hbelow
    have hlt := of_decide_eq_true hlt
    have hlate := hlast t ht
    omega
  unfold Sweep.passed Sweep.ahead
  rw [hrest, Sweep.takeWhile_stop hstop, Sweep.dropWhile_stop hstop]
  have hpassed : (p.swept.takeWhile (Sweep.below ackUs p.times)).countP
      (fun d => !p.settled d) = 0 := by
    apply List.countP_eq_zero.mpr
    intro d hd
    have hin := (List.takeWhile_prefix _).subset hd
    have hbelow : Sweep.below ackUs p.times d = true := List.mem_takeWhile_imp hd
    obtain ⟨t, ht, hlt⟩ := List.any_eq_true.mp hbelow
    have hbefore : ackedBefore p.time d = true :=
      decide_eq_true ((of_decide_eq_true hlt).trans_le (hlast t ht))
    have hkey : d.1 ≤ p.e.1 := (hfront d ((List.dropWhile_sublist _).subset hin)).le
    unfold settled
    rw [decide_eq_true hkey, hpayload d hin, hbefore]
    decide
  have hahead : (p.swept.dropWhile (Sweep.below ackUs p.times) ++ p.e :: rest).countP
      p.settled = 0 := by
    apply List.countP_eq_zero.mpr
    intro d hd hsettled
    have hbefore : ackUs d < p.time :=
      of_decide_eq_true (Bool.and_eq_true_iff.mp (Bool.and_eq_true_iff.mp hsettled).2).2
    rcases List.mem_append.mp hd with hfirst | hlater
    · exact Sweep.not_below_of_mem_ahead ackUs hacks hfirst
        (List.any_eq_true.mpr ⟨p.time, p.time_mem_times, decide_eq_true hbefore⟩)
    · rcases List.mem_cons.mp hlater with rfl | hbehind
      · omega
      · exact p.not_settled_of_lt (hback d hbehind) hsettled
  rw [hpassed, hahead]

end PktSent

/-- No range is acknowledged before it is sent. -/
structure SentBeforeAck (r : ByteRange) : Prop where
  first : r.ackTime = Timeval.zero ∨ r.firstSend.getUsecs ≤ r.ackTime.getUsecs
  pkts : r.acked = true → ∀ p ∈ r.sentTstampPcap, p.2 = .pkt →
    p.1.getUsecs ≤ r.ackTime.getUsecs

/-- `pifs` is the number of data ranges in flight exactly when the sweep is balanced. -/
theorem genStats_pifs_iff (bs : PacketsStats) (hl : rm.analysedRanges iv = .ok l)
    (hsent : ∀ d ∈ l, SentBeforeAck d.2) :
    ∃ st, rm.genSegments iv bs = .ok st ∧ ∀ p : PktSent l,
      ∃ ps, st.bs.packetStats[bs.packetStats.length + p.slot]? = some ps ∧
        ps.sType = .pkt ∧ ps.sendTimeUs = p.time ∧
        ((ps.pifs = p.inFlight ∧ 1 ≤ ps.pifs) ↔ p.Balanced rm iv) := by
  obtain ⟨st, hst, hrecords⟩ :=
    PktSent.exists_record bs hl fun d hd => hasLatency_of_le (hsent d hd).first
  refine ⟨st, hst, fun p => ?_⟩
  obtain ⟨ps, hps, hpkt, htime, hpifs⟩ := hrecords p
  refine ⟨ps, hps, hpkt, htime, ?_⟩
  have hle : p.time ≤ ackUs p.e := by
    apply (hsent p.e p.mem).pkts p.acked (p.tv, .pkt)
    · rw [p.sent]
      exact List.mem_append_right p.before List.mem_cons_self
    · rfl
  have hone := p.one_le_inFlight hle
  have hcount : ps.pifs = p.inFlight ↔ p.Balanced rm iv := by
    rw [hpifs, p.count_eq hl, toInt16_add_eq_iff]
    constructor
    · rintro ⟨hdvd, hfit⟩
      exact ⟨Nat.modEq_iff_dvd.mpr (by exact_mod_cast hdvd), hfit⟩
    · intro hbalanced
      exact ⟨by exact_mod_cast Nat.modEq_iff_dvd.mp hbalanced.even, hbalanced.fits⟩
  rw [← hcount]
  constructor
  · exact And.left
  · intro heq
    refine ⟨heq, ?_⟩
    rw [heq]
    exact_mod_cast hone

/-- The first transmission of the range at `i`. -/
def firstPkt? (l : List Entry) (i : ℕ) : Option (PktSent l) :=
  if h : i < l.length then
    match hsent : l[i].2.sentTstampPcap with
    | (tv, .pkt) :: after =>
        if hdata : l[i].2.hasPayload = true ∧ l[i].2.acked = true then
          some
            { pre := l.take i, e := l[i], post := l.drop (i + 1), before := [], tv := tv
              after := after
              cut := by rw [List.getElem_cons_drop, List.take_append_drop]
              sent := hsent
              hasPayload := hdata.1
              acked := hdata.2 }
        else none
    | _ => none
  else none

end InFlight

instance (r : ByteRange) : Decidable (SentBeforeAck r) :=
  decidable_of_iff
    ((r.ackTime = Timeval.zero ∨ r.firstSend.getUsecs ≤ r.ackTime.getUsecs) ∧
      (r.acked = true → ∀ p ∈ r.sentTstampPcap, p.2 = .pkt →
        p.1.getUsecs ≤ r.ackTime.getUsecs))
    ⟨fun h => ⟨h.1, h.2⟩, fun h => ⟨h.first, h.pkts⟩⟩

/-- The packet with a SYN, two segments, an ACK for the first, a third segment, and an ACK for
all. -/
def twoInFlight : List SenderEvent :=
  [.sent { data := { flags := thSyn, tstampPcap := atSecond 10 } },
    .sent { data := { seq := 1, endSeq := 11, payloadSize := 10, tstampPcap := atSecond 11 } },
    .sent { data := { seq := 11, endSeq := 21, payloadSize := 10, tstampPcap := atSecond 12 } },
    .ack { ack := 11, tstampPcap := atSecond 13 },
    .sent { data := { seq := 21, endSeq := 31, payloadSize := 10, tstampPcap := atSecond 14 } },
    .ack { ack := 31, tstampPcap := atSecond 15 }]

theorem genStats_pifs_iff_two :
    ∃ rm l st, Run.run senderStep (new 0) twoInFlight = .ok rm ∧
      rm.analysedRanges rm.wholeMap = .ok l ∧
      rm.genSegments rm.wholeMap (.init (fun _ => 0) []) = .ok st ∧
      ∃ p : PktSent l, p.inFlight = 2 ∧ p.Balanced rm rm.wholeMap ∧
        ∃ ps ∈ st.bs.packetStats, ps.pifs = p.inFlight := by
  have hrun : ∃ rm, Run.run senderStep (new 0) twoInFlight = .ok rm ∧
      (rm.analysedRanges rm.wholeMap).toOption.any (fun l : List Entry =>
        decide (∀ d ∈ l, SentBeforeAck d.2) && (firstPkt? l 3).any fun p =>
          decide (p.inFlight = 2 ∧ (∀ d ∈ p.swept, d.2.hasPayload = true) ∧
            (p.swept.Pairwise fun a b => ackUs a ≤ ackUs b) ∧ p.time ≤ ackUs p.e ∧
            ∀ t ∈ p.times, t ≤ p.time)) = true :=
    Run.exists_of_any_toOption (by decide +kernel)
  obtain ⟨rm, hrm, hl⟩ := hrun
  obtain ⟨l, hl, hok⟩ := Run.exists_of_any_toOption hl
  obtain ⟨hsent, hp⟩ := Bool.and_eq_true_iff.mp hok
  obtain ⟨p, -, hp⟩ := (Option.any_eq_true _ _).mp hp
  obtain ⟨htwo, hpayload, hacks, hle, hlast⟩ := of_decide_eq_true hp
  have hbalanced : p.Balanced rm rm.wholeMap :=
    p.balanced_of_payload hl hpayload hacks hle hlast (by omega)
  obtain ⟨st, hst, hrecords⟩ :=
    genStats_pifs_iff (.init (fun _ => 0) []) hl (of_decide_eq_true hsent)
  obtain ⟨ps, hps, -, -, hiff⟩ := hrecords p
  exact ⟨rm, l, st, hrm, hl, hst, p, htwo, hbalanced, ps, List.mem_of_getElem? hps,
    (hiff.mpr hbalanced).1⟩

/-- ACK times and send times of data ranges do not decrease. -/
structure InOrder (l : List Entry) : Prop where
  acks : (l.filter fun d => d.2.hasPayload).Pairwise fun a b => ackUs a ≤ ackUs b
  sends : (l.filter fun d => d.2.hasPayload).Pairwise fun a b =>
    ∀ p ∈ a.2.sentTstampPcap, ∀ q ∈ b.2.sentTstampPcap, p.1.getUsecs ≤ q.1.getUsecs

instance (l : List Entry) : Decidable (InOrder l) :=
  decidable_of_iff
    (((l.filter fun d => d.2.hasPayload).Pairwise fun a b => ackUs a ≤ ackUs b) ∧
      (l.filter fun d => d.2.hasPayload).Pairwise fun a b =>
        ∀ p ∈ a.2.sentTstampPcap, ∀ q ∈ b.2.sentTstampPcap, p.1.getUsecs ≤ q.1.getUsecs)
    ⟨fun h => ⟨h.1, h.2⟩, fun h => ⟨h.acks, h.sends⟩⟩

/-- A segment and its ACK, a keep-alive, and two more segments, each acknowledged before the next is
sent. -/
def keepAlive : List SenderEvent :=
  [.sent { data := { endSeq := 10, payloadSize := 10, tstampPcap := atSecond 10 } },
    .ack { ack := 10, tstampPcap := atSecond 11 },
    .sent { data := { seq := 9, endSeq := 9, tstampPcap := atSecond 20 } },
    .sent { data := { seq := 10, endSeq := 20, payloadSize := 10, tstampPcap := atSecond 30 } },
    .ack { ack := 20, tstampPcap := atSecond 31 },
    .sent { data := { seq := 20, endSeq := 30, payloadSize := 10, tstampPcap := atSecond 40 } },
    .ack { ack := 30, tstampPcap := atSecond 41 }]

/-- The third segment is in flight, and its record says that nothing is. -/
theorem genStats_pifs_keepAlive :
    ∃ rm l st, Run.run senderStep (new 0) keepAlive = .ok rm ∧
      rm.analysedRanges rm.wholeMap = .ok l ∧
      rm.genSegments rm.wholeMap (.init (fun _ => 0) []) = .ok st ∧
      InOrder l ∧ (∀ d ∈ l, SentBeforeAck d.2) ∧
      ∃ p : PktSent l, p.inFlight = 1 ∧
        ∃ ps, st.bs.packetStats[p.slot]? = some ps ∧ ps.sType = .pkt ∧
          ps.sendTimeUs = p.time ∧ ps.pifs = 0 := by
  have hrun : ∃ rm, Run.run senderStep (new 0) keepAlive = .ok rm ∧
      (rm.analysedRanges rm.wholeMap).toOption.any (fun l : List Entry =>
        (rm.genSegments rm.wholeMap (.init (fun _ => 0) [])).toOption.any fun st : GenState =>
          decide (InOrder l ∧ ∀ d ∈ l, SentBeforeAck d.2) && (firstPkt? l 3).any fun p =>
            decide (p.inFlight = 1) && st.bs.packetStats[p.slot]?.any fun ps =>
              decide (ps.sType = .pkt ∧ ps.sendTimeUs = p.time ∧ ps.pifs = 0)) = true :=
    Run.exists_of_any_toOption (by decide +kernel)
  obtain ⟨rm, hrm, hl⟩ := hrun
  obtain ⟨l, hl, hst⟩ := Run.exists_of_any_toOption hl
  obtain ⟨st, hst, hok⟩ := Run.exists_of_any_toOption hst
  obtain ⟨horder, hp⟩ := Bool.and_eq_true_iff.mp hok
  obtain ⟨p, -, hp⟩ := (Option.any_eq_true _ _).mp hp
  obtain ⟨hone, hps⟩ := Bool.and_eq_true_iff.mp hp
  obtain ⟨ps, hps, hzero⟩ := (Option.any_eq_true _ _).mp hps
  obtain ⟨horder, hsent⟩ := of_decide_eq_true horder
  exact ⟨rm, l, st, hrm, hl, hst, horder, hsent, p, of_decide_eq_true hone, ps, hps,
    of_decide_eq_true hzero⟩

end RangeManager

end AnalyseTCP
