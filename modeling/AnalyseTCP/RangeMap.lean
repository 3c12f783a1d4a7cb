import AnalyseTCP.RangeManager

/-!
# The range map as a partition of the byte stream

What the functions of the `RangeManager` do to the intervals of the map, apart from the counters:
well-formed entries, the two halves of a split, disjointness and the positions a map holds.
-/

namespace AnalyseTCP

abbrev Entry := ℕ × ByteRange

namespace ByteRange

def Holds (r : ByteRange) (b : ℕ) : Prop := r.startSeq ≤ b ∧ b < r.endSeq

instance (r : ByteRange) (b : ℕ) : Decidable (r.Holds b) := inferInstanceAs (Decidable (_ ∧ _))

/-- The endpoints agree with the 16-bit byte count. -/
structure Wf (r : ByteRange) : Prop where
  size : r.startSeq + r.byteCount = r.endSeq
  bound : r.byteCount < 2 ^ 16

theorem wf_iff {r : ByteRange} :
    r.Wf ↔ r.startSeq + r.byteCount = r.endSeq ∧ r.byteCount < 2 ^ 16 :=
  ⟨fun h => ⟨h.size, h.bound⟩, fun h => ⟨h.1, h.2⟩⟩

theorem Wf.le {r : ByteRange} (h : r.Wf) : r.startSeq ≤ r.endSeq := by
  have := h.size
  omega

theorem Wf.endSeq_lt {r : ByteRange} (h : r.Wf) : r.endSeq < r.startSeq + 2 ^ 16 := by
  have := h.size
  have := h.bound
  omega

theorem Wf.of_size {r : ByteRange} (hle : r.startSeq ≤ r.endSeq)
    (hlt : r.endSeq < r.startSeq + 2 ^ 16) (hsize : r.byteCount = r.endSeq - r.startSeq) :
    r.Wf := ⟨by omega, by omega⟩

theorem Wf.congr {r r' : ByteRange} (h : r.Wf) (hstart : r'.startSeq = r.startSeq)
    (hend : r'.endSeq = r.endSeq) (hbytes : r'.byteCount = r.byteCount) : r'.Wf :=
  ⟨by rw [hstart, hend, hbytes, h.size], hbytes ▸ h.bound⟩

/-! ## The halves of a split -/

/-- What `splitEnd` leaves of the range itself. -/
def head (r : ByteRange) (c : ℕ) : ByteRange :=
  { r with endSeq := c, byteCount := c - r.startSeq }

/-- The range that `splitEnd` returns.  The packet counters, the flags, `rdb_count`, the receive
time and the lost timestamps are not copied. -/
def tail (r : ByteRange) (c : ℕ) : ByteRange :=
  { blank c r.endSeq with
    byteCount := r.endSeq - c
    originalPayloadSize := r.endSeq - c
    dataRetransCount := r.dataRetransCount
    dataSentCount := r.dataSentCount
    dataReceivedCount := r.dataReceivedCount
    receivedTstampTcp := r.receivedTstampTcp
    tstampsTcp := r.tstampsTcp
    rdbTstampsTcp := r.rdbTstampsTcp
    ackTime := r.ackTime
    acked := r.acked
    sentTstampPcap := r.sentTstampPcap.map fun p => (p.1, SentType.none) }

theorem updateByteCount_eq (r : ByteRange) (hle : r.startSeq ≤ r.endSeq)
    (hlt : r.endSeq - r.startSeq < 2 ^ 16 - 1) :
    r.updateByteCount = .ok { r with byteCount := r.endSeq - r.startSeq } := by
  have hsub : sub64 r.endSeq r.startSeq = r.endSeq - r.startSeq := sub64_eq_sub hle (by omega)
  unfold updateByteCount
  rw [hsub, if_pos hlt]

theorem new_eq (start stop : ℕ) (hle : start ≤ stop) (hlt : stop - start < 2 ^ 16 - 1) :
    new start stop =
      .ok { blank start stop with
        byteCount := stop - start, originalPayloadSize := stop - start } := by
  unfold new
  rw [updateByteCount_eq (blank start stop) hle hlt]
  simp only [bind, Except.bind, pure, Except.pure, blank]

theorem updateByteCount_endSeq (r : ByteRange) {c : ℕ} (hle : r.startSeq ≤ c)
    (hlt : c - r.startSeq < 2 ^ 16 - 1) :
    updateByteCount { r with endSeq := c } = .ok (r.head c) :=
  updateByteCount_eq { r with endSeq := c } hle hlt

theorem split_eq {r r' newBr : ByteRange} {start stop : ℕ} (hnew : new start stop = .ok newBr)
    (hupd : r.updateByteCount = .ok r') :
    r.split start stop = .ok (r', { newBr with
      packetSentCount := 0
      dataRetransCount := r.dataRetransCount
      dataSentCount := r.dataSentCount
      dataReceivedCount := r.dataReceivedCount
      receivedTstampTcp := r.receivedTstampTcp
      tstampsTcp := r.tstampsTcp
      rdbTstampsTcp := r.rdbTstampsTcp
      ackTime := r.ackTime
      acked := r.acked
      sentTstampPcap := r'.sentTstampPcap.map fun p => (p.1, SentType.none) }) := by
  unfold split
  rw [hnew, hupd]
  rfl

/-- A cut strictly inside a well-formed range always succeeds. -/
theorem splitEnd_eq {r : ByteRange} (hwf : r.Wf) {c : ℕ} (hlo : r.startSeq < c)
    (hhi : c < r.endSeq) : r.splitEnd c r.endSeq = .ok (r.head c, r.tail c) := by
  have hlt := hwf.endSeq_lt
  have htail : r.endSeq - c < 2 ^ 16 - 1 := by omega
  have hhead : c - r.startSeq < 2 ^ 16 - 1 := by omega
  exact split_eq (new_eq c r.endSeq hhi.le htail) (updateByteCount_endSeq r hlo.le hhead)

theorem Wf.head {r : ByteRange} (h : r.Wf) {c : ℕ} (hlo : r.startSeq ≤ c) (hhi : c ≤ r.endSeq) :
    (r.head c).Wf := by
  have := h.endSeq_lt
  exact .of_size hlo (show c < r.startSeq + 2 ^ 16 by omega) rfl

theorem Wf.tail {r : ByteRange} (h : r.Wf) {c : ℕ} (hlo : r.startSeq ≤ c) (hhi : c ≤ r.endSeq) :
    (r.tail c).Wf := by
  have := h.endSeq_lt
  exact .of_size hhi (show r.endSeq < c + 2 ^ 16 by omega) rfl

@[simp] theorem head_startSeq (r : ByteRange) (c : ℕ) : (r.head c).startSeq = r.startSeq := rfl
@[simp] theorem head_endSeq (r : ByteRange) (c : ℕ) : (r.head c).endSeq = c := rfl
@[simp] theorem head_byteCount (r : ByteRange) (c : ℕ) :
    (r.head c).byteCount = c - r.startSeq := rfl
@[simp] theorem tail_startSeq (r : ByteRange) (c : ℕ) : (r.tail c).startSeq = c := rfl
@[simp] theorem tail_endSeq (r : ByteRange) (c : ℕ) : (r.tail c).endSeq = r.endSeq := rfl
@[simp] theorem tail_byteCount (r : ByteRange) (c : ℕ) :
    (r.tail c).byteCount = r.endSeq - c := rfl

end ByteRange

/-! ## Maps -/

/-- Every entry is keyed by its start and has a consistent size. -/
def WfEntries (l : List Entry) : Prop := ∀ en ∈ l, en.1 = en.2.startSeq ∧ en.2.Wf

/-- No range reaches into a later one. -/
def Separated (l : List Entry) : Prop := l.Pairwise fun a b => a.2.endSeq ≤ b.2.startSeq

/-- Some range starts at `q` or contains it. -/
def Held (l : List Entry) (q : ℕ) : Prop := ∃ en ∈ l, en.1 = q ∨ en.2.Holds q

instance (l : List Entry) (q : ℕ) : Decidable (Held l q) :=
  inferInstanceAs (Decidable (∃ en ∈ l, _))

theorem wfEntries_nil : WfEntries [] := fun _ h => nomatch h

theorem wfEntries_append {l₁ l₂ : List Entry} :
    WfEntries (l₁ ++ l₂) ↔ WfEntries l₁ ∧ WfEntries l₂ := by
  unfold WfEntries
  exact List.forall_mem_append

theorem wfEntries_cons {en : Entry} {l : List Entry} :
    WfEntries (en :: l) ↔ (en.1 = en.2.startSeq ∧ en.2.Wf) ∧ WfEntries l := by
  simp only [WfEntries, List.forall_mem_cons]

theorem separated_nil : Separated [] := List.Pairwise.nil

theorem separated_append {l₁ l₂ : List Entry} :
    Separated (l₁ ++ l₂) ↔ Separated l₁ ∧ Separated l₂ ∧
      ∀ a ∈ l₁, ∀ b ∈ l₂, a.2.endSeq ≤ b.2.startSeq :=
  List.pairwise_append

theorem separated_cons {en : Entry} {l : List Entry} :
    Separated (en :: l) ↔ (∀ b ∈ l, en.2.endSeq ≤ b.2.startSeq) ∧ Separated l :=
  List.pairwise_cons

section Cuts

variable {m : OrdMap ℕ ByteRange} {key s : ℕ} {r : ByteRange} {pre post : List Entry}

/-- In a separated map, the range that contains `s` is the last one that starts below `s`. -/
theorem below_of_holds (hwf : WfEntries m.entries) (hsep : Separated m.entries)
    (hcut : m.entries = pre ++ (key, r) :: post) (hlt : key < s) (hhold : r.Holds s) :
    m.below s = pre ++ [(key, r)] ∧ m.atLeast s = post := by
  have hpre : ∀ en ∈ pre ++ [(key, r)], decide (en.1 < s) = true := by
    intro en hen
    rcases List.mem_append.mp hen with hen | hen
    · simpa using (OrdMap.lt_of_mem_pre hcut hen).trans hlt
    · obtain rfl := List.mem_singleton.mp hen
      simpa using hlt
  have hpost : ∀ en ∈ post, ¬en.1 < s := by
    intro en hen
    have hsep' := hcut ▸ hsep
    have hle : r.endSeq ≤ en.2.startSeq :=
      (separated_cons.mp (separated_append.mp hsep').2.1).1 en hen
    have hkey := (hwf en (by rw [hcut]; simp [hen])).1
    have := hhold.2
    omega
  have hcut' : m.entries = (pre ++ [(key, r)]) ++ post := by simpa using hcut
  unfold OrdMap.below OrdMap.atLeast
  rw [hcut', List.takeWhile_append_of_pos hpre, List.dropWhile_append_of_pos hpre]
  cases post with
  | nil => simp
  | cons p ps =>
      have hp : ¬p.1 < s := hpost p List.mem_cons_self
      simp [hp]

end Cuts

end AnalyseTCP
