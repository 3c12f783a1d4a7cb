import AnalyseTCP.AckLatency
import AnalyseTCP.ConnectionKeys
import AnalyseTCP.MiniCsv

/-!
# The result files

The names of all files that the writers of one run open, and the text of those with the ACK
latencies.  A name has no digit in front of the connection or the number of retransmissions in it,
and that part of the name tells the writers apart.
-/

namespace AnalyseTCP

/-! ## The names -/

section Names

-- `GlobOpts::prefix`
variable (globPrefix filenameID : String)

def getConnFilename (connKey : String) : String :=
  globPrefix ++ filenameID ++ "-" ++ connKey ++ ".dat"

def getAggrFilename (aggrPostfix : String) : String := globPrefix ++ filenameID ++ aggrPostfix

/-- `AckLatencyWriter::getFilename`. -/
def AckLatencyWriter.getFilename (filenameKey : String) (index : ℕ) : String :=
  globPrefix ++ filenameID ++ (if index = 0 then "-all" else "-retr" ++ toString index) ++
    ("-" ++ filenameKey ++ ".dat")

end Names

/-- The writers with a file for each connection and an aggregated one. -/
inductive ConnWriter
  | queueingDelay | packetByteCountAndITT | throughput | loss
deriving DecidableEq

def ConnWriter.filenameID : ConnWriter → String
  | queueingDelay => "queueing-delay"
  | packetByteCountAndITT => "packet-byte-count-and-itt"
  | throughput => "throughput"
  | loss => "loss"

/-- The writers with one file. -/
inductive AggrWriter
  | connStats | perPacketStats | perSegmentStats
deriving DecidableEq

def AggrWriter.filenameID : AggrWriter → String
  | connStats => "conn-stats"
  | perPacketStats => "per-packet-stats"
  | perSegmentStats => "per-segment-stats"

/-- The files that a run may open. -/
inductive OutputFile
  | conn (w : ConnWriter) (k : ConnectionMapKey)
  | aggr (w : ConnWriter)
  | all (w : AggrWriter)
  /-- of a connection, or the aggregated one -/
  | ackLatency (k : Option ConnectionMapKey) (index : ℕ)
  | latencyVariationCDF
  | aggLatencyVariationCDF

namespace OutputFile

def name (globPrefix : String) : OutputFile → String
  | conn w k => getConnFilename globPrefix w.filenameID k.text
  | aggr w => getAggrFilename globPrefix w.filenameID "-aggr.dat"
  | all w => getAggrFilename globPrefix w.filenameID "-all.dat"
  | ackLatency k index =>
      AckLatencyWriter.getFilename globPrefix "latency" (k.elim "aggr" ConnectionMapKey.text) index
  | latencyVariationCDF => globPrefix ++ "latency-variation-cdf.dat"
  | aggLatencyVariationCDF => globPrefix ++ "latency-variation-aggr-cdf.dat"

/-- What a name has in front of the first digit. -/
inductive Head
  | conn (w : ConnWriter)
  | aggr (w : ConnWriter)
  | all (w : AggrWriter)
  | ackLatency | aggrAckLatency | retransmitted
  | latencyVariationCDF | aggLatencyVariationCDF
deriving DecidableEq

def Head.text : Head → String
  | conn w => w.filenameID ++ "-"
  | aggr w => w.filenameID ++ "-aggr.dat"
  | all w => w.filenameID ++ "-all.dat"
  | ackLatency => "latency" ++ "-all" ++ "-"
  | aggrAckLatency => "latency" ++ "-all" ++ ("-" ++ "aggr" ++ ".dat")
  | retransmitted => "latency" ++ "-retr"
  | latencyVariationCDF => "latency-variation-cdf.dat"
  | aggLatencyVariationCDF => "latency-variation-aggr-cdf.dat"

def head : OutputFile → Head
  | conn w _ => .conn w
  | aggr w => .aggr w
  | all w => .all w
  | ackLatency (some _) 0 => .ackLatency
  | ackLatency none 0 => .aggrAckLatency
  | ackLatency _ (_ + 1) => .retransmitted
  | latencyVariationCDF => .latencyVariationCDF
  | aggLatencyVariationCDF => .aggLatencyVariationCDF

/-- What a name has from the first digit on. -/
def tail : OutputFile → List Char
  | conn _ k => k.text.toList ++ ".dat".toList
  | ackLatency (some k) 0 => k.text.toList ++ ".dat".toList
  | ackLatency k (i + 1) =>
      Nat.toDigits 10 (i + 1) ++ '-' ::
        ((k.elim "aggr" ConnectionMapKey.text).toList ++ ".dat".toList)
  | _ => []

theorem name_eq (globPrefix : String) (f : OutputFile) :
    (f.name globPrefix).toList = globPrefix.toList ++ (f.head.text.toList ++ f.tail) := by
  cases f with
  | conn w k =>
      rw [name, getConnFilename, head, tail, Head.text]
      simp only [String.toList_append, List.append_assoc]
  | aggr w =>
      have htail : (aggr w).tail = [] := rfl
      rw [htail, name, getAggrFilename, head, Head.text]
      simp only [String.toList_append, List.append_assoc, List.append_nil]
  | all w =>
      have htail : (all w).tail = [] := rfl
      rw [htail, name, getAggrFilename, head, Head.text]
      simp only [String.toList_append, List.append_assoc, List.append_nil]
  | ackLatency k index =>
      rw [name, AckLatencyWriter.getFilename]
      cases index with
      | zero =>
          rw [if_pos rfl]
          cases k with
          | none =>
              have htail : (ackLatency none 0).tail = [] := rfl
              rw [htail, head, Head.text, Option.elim_none]
              simp only [String.toList_append, List.append_assoc, List.append_nil]
          | some k =>
              rw [head, tail, Head.text, Option.elim_some]
              simp only [String.toList_append, List.append_assoc]
      | succ i =>
          have hminus : "-".toList = ['-'] := by simp
          rw [if_neg (Nat.succ_ne_zero i), head, tail, Head.text]
          simp only [String.toList_append, List.append_assoc, hminus, Nat.toString_eq_repr,
            Nat.toList_repr, List.cons_append, List.nil_append]
  | latencyVariationCDF =>
      have htail : latencyVariationCDF.tail = [] := rfl
      rw [htail, name, head, Head.text, String.toList_append, List.append_nil]
  | aggLatencyVariationCDF =>
      have htail : aggLatencyVariationCDF.tail = [] := rfl
      rw [htail, name, head, Head.text, String.toList_append, List.append_nil]

def Head.list : List Head :=
  [ConnWriter.queueingDelay, .packetByteCountAndITT, .throughput, .loss].flatMap
      (fun w => [conn w, aggr w]) ++
    [AggrWriter.connStats, .perPacketStats, .perSegmentStats].map all ++
    [ackLatency, aggrAckLatency, retransmitted, latencyVariationCDF, aggLatencyVariationCDF]

theorem Head.mem_list (h : Head) : h ∈ Head.list := by
  cases h with
  | conn w => cases w <;> decide
  | aggr w => cases w <;> decide
  | all w => cases w <;> decide
  | _ => decide

theorem head_noDigit (h : Head) : ∀ c ∈ h.text.toList, c.isDigit = false := by
  have hall : ∀ h ∈ Head.list, (h.text.toList.all fun c => !c.isDigit) = true := by
    decide +kernel
  intro c hc
  have hc := List.all_eq_true.mp (hall h h.mem_list) c hc
  rwa [Bool.not_eq_true'] at hc

theorem head_inj {g h : Head} (heq : g.text = h.text) : g = h := by
  have hall : ∀ g ∈ Head.list, ∀ h ∈ Head.list, g.text = h.text → g = h := by
    decide +kernel
  exact hall g g.mem_list h h.mem_list heq

/-- The keys in the name are those of a capture. -/
def Wire : OutputFile → Prop
  | conn _ k => k.Wire
  | ackLatency k _ => ∀ key ∈ k, key.Wire
  | _ => True

theorem digit_head_toDigits (n : ℕ) (l : List Char) :
    ∀ c ∈ (Nat.toDigits 10 n ++ l).head?, c.isDigit = true := by
  intro c hc
  obtain ⟨d, ds, hdigits⟩ := List.exists_cons_of_ne_nil (Nat.toDigits_ne_nil (n := n) (b := 10))
  rw [hdigits] at hc
  obtain rfl := Option.mem_some.mp hc
  exact Nat.isDigit_of_mem_toDigits (b := 10) (n := n) (by decide) (by decide)
    (hdigits ▸ List.mem_cons_self)

theorem digit_head_text (k : ConnectionMapKey) (l : List Char) :
    ∀ c ∈ (k.text.toList ++ l).head?, c.isDigit = true := by
  rw [k.toList_text, toList_makeHostKey, List.append_assoc, List.append_assoc]
  exact digit_head_toDigits _ _

theorem digit_head_tail (f : OutputFile) : ∀ c ∈ f.tail.head?, c.isDigit = true := by
  cases f with
  | conn w k => exact digit_head_text k _
  | ackLatency k index =>
      cases index with
      | zero =>
          cases k with
          | none => exact fun _ hc => nomatch hc
          | some k => exact digit_head_text k _
      | succ i =>
          rw [tail]
          exact digit_head_toDigits _ _
  | _ => exact fun _ hc => nomatch hc

/-- A text without digits, and what starts with one. -/
theorem literal_inj {x x' t t' : List Char} (hx : ∀ c ∈ x, c.isDigit = false)
    (hx' : ∀ c ∈ x', c.isDigit = false) (ht : ∀ c ∈ t.head?, c.isDigit = true)
    (ht' : ∀ c ∈ t'.head?, c.isDigit = true) (h : x ++ t = x' ++ t') : x = x' ∧ t = t' := by
  induction x generalizing x' with
  | nil =>
      cases x' with
      | nil => exact ⟨rfl, h⟩
      | cons c x' =>
          have hdigit := ht c (by rw [List.nil_append] at h; rw [h]; rfl)
          rw [hx' c List.mem_cons_self] at hdigit
          exact absurd hdigit (by decide)
  | cons c x ih =>
      cases x' with
      | nil =>
          have hdigit := ht' c (by rw [List.nil_append] at h; rw [← h]; rfl)
          rw [hx c List.mem_cons_self] at hdigit
          exact absurd hdigit (by decide)
      | cons c' x' =>
          obtain ⟨rfl, htail⟩ := List.cons.inj h
          obtain ⟨rfl, hrest⟩ := ih (fun d hd => hx d (List.mem_cons_of_mem _ hd))
            (fun d hd => hx' d (List.mem_cons_of_mem _ hd)) htail
          exact ⟨rfl, hrest⟩

/-- The key in the name of a file with ACK latencies, ended by a character. -/
theorem filenameKey_inj {k k' : Option ConnectionMapKey} (hk : ∀ key ∈ k, key.Wire)
    (hk' : ∀ key ∈ k', key.Wire) {l : List Char}
    (h : (k.elim "aggr" ConnectionMapKey.text).toList ++ '.' :: l =
      (k'.elim "aggr" ConnectionMapKey.text).toList ++ '.' :: l) : k = k' := by
  -- a connection starts with a digit
  have hmixed : ∀ key : ConnectionMapKey, "aggr".toList ++ '.' :: l ≠ key.text.toList ++ '.' :: l := by
    intro key heq
    have hdigit := digit_head_text key ('.' :: l) 'a' (by rw [← heq]; rfl)
    exact absurd hdigit (by decide)
  cases k with
  | none =>
      cases k' with
      | none => rfl
      | some key' => exact absurd h (hmixed key')
  | some key =>
      cases k' with
      | none => exact absurd h.symm (hmixed key)
      | some key' =>
          have hsame := ConnectionMapKey.text_cut_inj (by decide) (hk key rfl) (hk' key' rfl) h
          exact congrArg some hsame.1

theorem ackLatency_inj {k k' : Option ConnectionMapKey} {i i' : ℕ} (hk : ∀ key ∈ k, key.Wire)
    (hk' : ∀ key ∈ k', key.Wire) (hhead : (ackLatency k i).head = (ackLatency k' i').head)
    (htail : (ackLatency k i).tail = (ackLatency k' i').tail) :
    ackLatency k i = ackLatency k' i' := by
  cases i with
  | zero =>
      cases i' with
      | succ i' => cases k <;> cases k' <;> cases hhead
      | zero =>
          cases k with
          | none =>
              cases k' with
              | none => rfl
              | some key' => cases hhead
          | some key =>
              cases k' with
              | none => cases hhead
              | some key' =>
                  have hsame := ConnectionMapKey.text_cut_inj (by decide) (hk key rfl)
                    (hk' key' rfl) htail
                  rw [hsame.1]
  | succ i =>
      cases i' with
      | zero => cases k <;> cases k' <;> cases hhead
      | succ i' =>
          rw [tail, tail] at htail
          obtain ⟨hindex, hkeys⟩ := number_inj (by decide) htail
          rw [hindex, filenameKey_inj hk hk' hkeys]

/-- The head of a file with ACK latencies. -/
def Head.ofAckLatency : Head → Bool
  | ackLatency | aggrAckLatency | retransmitted => true
  | _ => false

theorem ofAckLatency_head (k : Option ConnectionMapKey) (i : ℕ) :
    (ackLatency k i).head.ofAckLatency = true := by
  cases k <;> cases i <;> rfl

theorem tail_inj {f g : OutputFile} (hf : f.Wire) (hg : g.Wire) (hhead : f.head = g.head)
    (htail : f.tail = g.tail) : f = g := by
  have hack := congrArg Head.ofAckLatency hhead
  cases f with
  | ackLatency k i =>
      rw [ofAckLatency_head] at hack
      cases g with
      | ackLatency k' i' => exact ackLatency_inj hf hg hhead htail
      | _ => cases hack
  | conn w k =>
      cases g with
      | conn w' k' =>
          have hsame := ConnectionMapKey.text_cut_inj (by decide) hf hg htail
          rw [Head.conn.inj hhead, hsame.1]
      | ackLatency k' i' =>
          rw [ofAckLatency_head] at hack
          cases hack
      | _ => cases hhead
  | aggr w =>
      cases g with
      | aggr w' => rw [Head.aggr.inj hhead]
      | ackLatency k' i' =>
          rw [ofAckLatency_head] at hack
          cases hack
      | _ => cases hhead
  | all w =>
      cases g with
      | all w' => rw [Head.all.inj hhead]
      | ackLatency k' i' =>
          rw [ofAckLatency_head] at hack
          cases hack
      | _ => cases hhead
  | latencyVariationCDF =>
      cases g with
      | latencyVariationCDF => rfl
      | ackLatency k' i' =>
          rw [ofAckLatency_head] at hack
          cases hack
      | _ => cases hhead
  | aggLatencyVariationCDF =>
      cases g with
      | aggLatencyVariationCDF => rfl
      | ackLatency k' i' =>
          rw [ofAckLatency_head] at hack
          cases hack
      | _ => cases hhead

/-- No two files of a run have the same name. -/
theorem name_inj (globPrefix : String) {f g : OutputFile} (hf : f.Wire) (hg : g.Wire)
    (h : f.name globPrefix = g.name globPrefix) : f = g := by
  have hlists := congrArg String.toList h
  rw [name_eq, name_eq] at hlists
  obtain ⟨hhead, htail⟩ := literal_inj (head_noDigit _) (head_noDigit _) (digit_head_tail f)
    (digit_head_tail g) (List.append_cancel_left hlists)
  exact tail_inj hf hg (head_inj (String.toList_inj.mp hhead)) htail

/-- The file is one of a run over the connections of `d`. -/
def Of (d : Dump) : OutputFile → Prop
  | conn _ k => (d.conns.find? k).isSome
  | ackLatency k _ => ∀ key ∈ k, (d.conns.find? key).isSome
  | _ => True

/-- No two files that are written for a capture have the same name. -/
theorem name_inj_of_capture {nat : NatConfig} {sent acks recvd : List Frame} {d d' : Dump}
    (h : Dump.analyseSender nat sent acks = .ok d)
    (h' : Dump.processRecvdFile nat d recvd = .ok d') (globPrefix : String) {f g : OutputFile}
    (hf : f.Of d') (hg : g.Of d') (hne : f ≠ g) : f.name globPrefix ≠ g.name globPrefix := by
  have hkeys : ∀ k, (d'.conns.find? k).isSome → k.Wire := by
    intro k hk
    obtain ⟨conn, hconn⟩ := Option.isSome_iff_exists.mp hk
    exact Dump.processRecvdFile_wire h h' (k, conn) (OrdMap.find?_eq_some_iff.mp hconn)
  have hwire : ∀ f : OutputFile, f.Of d' → f.Wire := by
    intro f hf
    cases f with
    | conn w k => exact hkeys k hf
    | ackLatency k i => exact fun key hkey => hkeys key (hf key hkey)
    | _ => trivial
  exact fun heq => hne (name_inj globPrefix (hwire f hf) (hwire g hg) heq)

/-- The aggregated latencies of the ranges that were resent twice, and the connection's. -/
theorem name_inj_of_capture_two :
    ∃ d d', Dump.analyseSender {} [Dump.shortFrame ⟨5, 0⟩ 1 9 0 0 0x10 10] [] = .ok d ∧
      Dump.processRecvdFile {} d [] = .ok d' ∧
      (ackLatency none 2).name "a" ≠
        (ackLatency (some ⟨0x1000000, 0x9000000, 0x100, 0x900⟩) 2).name "a" := by
  have hrun : (Dump.analyseSender {} [Dump.shortFrame ⟨5, 0⟩ 1 9 0 0 0x10 10] []).toOption.any
      (fun d => (Dump.processRecvdFile {} d []).toOption.any (fun d' =>
        (d'.conns.find? ⟨0x1000000, 0x9000000, 0x100, 0x900⟩).isSome)) = true := by
    decide +kernel
  obtain ⟨d, hd, hrecvd⟩ := Run.exists_of_any_toOption hrun
  obtain ⟨d', hd', hfound⟩ := Run.exists_of_any_toOption hrecvd
  refine ⟨d, d', hd, hd', name_inj_of_capture hd hd' "a" ?_ ?_ nofun⟩
  · exact fun key hkey => nomatch hkey
  · intro key hkey
    rw [← Option.some.inj hkey]
    exact hfound

end OutputFile

/-! ## The text of a file with ACK latencies -/

/-- The `int` that an `istringstream` reads; blanks in front, a plus sign and numbers that are too
large are left out. -/
def readInt (val : List Char) : Option ℤ :=
  if val.head? = some '-' then (readDigits val.tail).map fun n : ℕ => -(n : ℤ)
  else (readDigits val).map fun n : ℕ => (n : ℤ)
where
  readDigits (val : List Char) : Option ℕ :=
    match val.takeWhile Char.isDigit with
    | [] => none
    | digits => some (Nat.ofDigitChars 10 digits 0)

namespace LatencyItem

/-- What `operator <<` writes. -/
def values (lat : LatencyItem) : List (List Char) :=
  [(toString lat.timeMs).toList, (toString lat.latencyMs).toList, lat.streamId.toList]

/-- The item of a row. -/
def ofValues : List (List Char) → Option LatencyItem
  | [time, latency, stream] => do
      let timeMs ← readInt time
      let latencyMs ← readInt latency
      return ⟨timeMs, latencyMs, String.ofList stream⟩
  | _ => none

end LatencyItem

/-- `writeToStream` for one of the files, with the header that `newOutStream` has written. -/
def latencyFile (items : List LatencyItem) : List Char :=
  (items.foldl (fun s lat => s.putRow lat.values)
    (Csv.OFStream.putRow {} ["time,latency,stream_id".toList])).ostm

/-- Reading a file: the header is skipped, and there is an item in each row. -/
def readLatencyFile (text : List Char) : Option (List LatencyItem) :=
  ((Csv.IFStream.skipLine { istm := text }).readRows 3 text.length).mapM LatencyItem.ofValues

theorem readDigits_toDigits (n : ℕ) : readInt.readDigits (Nat.toDigits 10 n) = some n := by
  have hall : (Nat.toDigits 10 n).takeWhile Char.isDigit = Nat.toDigits 10 n := by
    rw [List.takeWhile_eq_self_iff]
    exact fun c hc => Nat.isDigit_of_mem_toDigits (by decide) (by decide) hc
  unfold readInt.readDigits
  rw [hall]
  split
  · next hnil => exact absurd hnil Nat.toDigits_ne_nil
  · rw [Nat.ofDigitChars_ten_toDigits]

theorem toList_toString (x : ℤ) : (toString x).toList =
    if 0 ≤ x then Nat.toDigits 10 x.toNat else '-' :: Nat.toDigits 10 (-x).toNat := by
  cases x with
  | ofNat n =>
      rw [if_pos (show 0 ≤ Int.ofNat n from Int.natCast_nonneg n)]
      exact Nat.toList_repr
  | negSucc n =>
      rw [if_neg (by omega)]
      show ("-" ++ Nat.repr (n + 1)).toList = _
      rw [String.toList_append, Nat.toList_repr]
      rfl

/-- A number that was written is read. -/
theorem readInt_toString (x : ℤ) : readInt (toString x).toList = some x := by
  rw [toList_toString]
  unfold readInt
  by_cases hneg : 0 ≤ x
  · have hhead : (Nat.toDigits 10 x.toNat).head? ≠ some '-' := fun hminus =>
      notMem_toDigits (by decide) _ (List.mem_of_mem_head? hminus)
    rw [if_pos hneg, if_neg hhead, readDigits_toDigits, Option.map_some, Int.toNat_of_nonneg hneg]
  · rw [if_neg hneg, List.head?_cons, if_pos rfl, List.tail_cons, readDigits_toDigits, Option.map_some,
      Int.toNat_of_nonneg (by omega), neg_neg]

theorem ofValues_values (lat : LatencyItem) : LatencyItem.ofValues lat.values = some lat := by
  unfold LatencyItem.values LatencyItem.ofValues
  dsimp only
  rw [readInt_toString, readInt_toString, String.ofList_toList]
  rfl

theorem clean_toString (x : ℤ) : Csv.Clean (toString x).toList := by
  have hdigits : ∀ {c : Char} (n : ℕ), c.isDigit = false → c ≠ '-' →
      c ∉ '-' :: Nat.toDigits 10 n := by
    intro c n hc hne hmem
    rcases List.mem_cons.mp hmem with heq | hmem
    · exact hne heq
    · exact notMem_toDigits hc n hmem
  rw [toList_toString]
  by_cases hneg : 0 ≤ x
  · rw [if_pos hneg]
    exact ⟨notMem_toDigits (by decide) _, notMem_toDigits (by decide) _,
      notMem_toDigits (by decide) _⟩
  · rw [if_neg hneg]
    exact ⟨hdigits _ (by decide) (by decide), hdigits _ (by decide) (by decide),
      hdigits _ (by decide) (by decide)⟩

theorem clean_text (k : ConnectionMapKey) : Csv.Clean k.text.toList := by
  have hhost : ∀ {c : Char} (ip port : ℕ), c.isDigit = false → c ≠ '.' → c ≠ ':' →
      c ∉ (makeHostKey ip port).toList := by
    intro c ip port hc hdot hcolon
    rw [toList_makeHostKey]
    simp [notMem_toDigits hc, hdot, hcolon]
  have htext : ∀ {c : Char}, c.isDigit = false → c ≠ '.' → c ≠ ':' → c ≠ '-' →
      c ∉ k.text.toList := by
    intro c hc hdot hcolon hminus
    rw [k.toList_text]
    simp [hhost _ _ hc hdot hcolon, hminus]
  exact ⟨htext (by decide) (by decide) (by decide) (by decide),
    htext (by decide) (by decide) (by decide) (by decide),
    htext (by decide) (by decide) (by decide) (by decide)⟩

theorem row_values {lat : LatencyItem} (hclean : Csv.Clean lat.streamId.toList) :
    Csv.Row 3 lat.values where
  length := rfl
  clean := by
    intro val hval
    unfold LatencyItem.values at hval
    simp only [List.mem_cons, List.not_mem_nil, or_false] at hval
    rcases hval with rfl | rfl | rfl
    · exact clean_toString _
    · exact clean_toString _
    · exact hclean
  text := by
    unfold LatencyItem.values
    rw [Csv.rowText_cons]
    simp

theorem mapM_ofValues (items : List LatencyItem) :
    (items.map LatencyItem.values).mapM LatencyItem.ofValues = some items := by
  induction items with
  | nil => rfl
  | cons lat items ih =>
      rw [List.map_cons, List.mapM_cons, ofValues_values, ih]
      rfl

/-- What is read from a file are the items that were written. -/
theorem readLatencyFile_latencyFile {items : List LatencyItem}
    (hclean : ∀ lat ∈ items, Csv.Clean lat.streamId.toList) :
    readLatencyFile (latencyFile items) = some items := by
  let header := "time,latency,stream_id".toList
  let body := (items.map LatencyItem.values).flatMap fun row => Csv.rowText row ++ ['\n']
  have htext : latencyFile items = header ++ '\n' :: body := by
    obtain ⟨hostm, hstart, hdelimiter⟩ := Csv.putRow_spec (s := {}) [header] rfl rfl
    unfold latencyFile
    rw [← List.foldl_map (g := Csv.OFStream.putRow), Csv.ostm_foldl_putRow _ hdelimiter hstart,
      hostm]
    simp [header, body, Csv.rowText]
  have hskip : Csv.IFStream.skipLine { istm := latencyFile items } =
      { istm := body, str := header } := by
    unfold Csv.IFStream.skipLine
    rw [htext, Csv.getline_append (by simp [header])]
    rfl
  have hlength : (items.map LatencyItem.values).length < (latencyFile items).length := by
    have hrows : _ ≤ body.length := Csv.length_le_flatMap (items.map LatencyItem.values)
    rw [htext, List.length_append, List.length_cons]
    show _ < header.length + (body.length + 1)
    omega
  unfold readLatencyFile
  rw [hskip, Csv.readRows_rows _ rfl rfl rfl hlength, mapM_ofValues]
  intro row hrow
  obtain ⟨lat, hlat, rfl⟩ := List.mem_map.mp hrow
  exact row_values (hclean lat hlat)

/-- The items of a connection are written under its key. -/
theorem streamId_of_ackItems {rm : RangeManager} {iv : AnalyseRange} {firstTstamp : ℤ}
    {connKey : String} {items : List (ℕ × LatencyItem)}
    (h : rm.ackItems iv firstTstamp connKey = .ok items) :
    ∀ p ∈ items, p.2.streamId = connKey := by
  obtain ⟨analysed, -, h⟩ := Run.exists_of_bind_ok h
  obtain rfl := Except.ok.inj h
  intro p hp
  obtain ⟨en, -, hitem⟩ := List.mem_filterMap.mp hp
  unfold RangeManager.ackItem at hitem
  split at hitem
  · cases hitem
  · split at hitem
    · rw [← Option.some.inj hitem]
    · cases hitem

/-- Nothing but the items is in the files. -/
theorem Filed.mem {files : DiffTimes} {items : List (ℕ × LatencyItem)} (h : Filed files items)
    {file : List LatencyItem} (hfile : file ∈ files) {lat : LatencyItem} (hlat : lat ∈ file) :
    ∃ p ∈ items, p.2 = lat := by
  obtain ⟨i, hi, rfl⟩ := List.mem_iff_getElem.mp hfile
  rw [← List.getD_eq_getElem files [] hi] at hlat
  by_cases hzero : i = 0
  · rw [hzero, h.all] at hlat
    exact List.mem_map.mp hlat
  · rw [h.retr i hzero] at hlat
    obtain ⟨p, hp, hlat⟩ := List.mem_map.mp hlat
    exact ⟨p, (List.mem_filter.mp hp).1, hlat⟩

/-- A connection of the capture, as the writer sees it. -/
def WrittenConn.ofKey (c : ConnectionMapKey × RangeManager × AnalyseRange) : WrittenConn where
  connKey := c.1.text
  rm := c.2.1
  iv := c.2.2

theorem exists_of_mem_forall₂ {α β : Type*} {R : α → β → Prop} {l : List α} {l' : List β}
    (h : List.Forall₂ R l l') {b : β} (hb : b ∈ l') : ∃ a ∈ l, R a b := by
  induction h with
  | nil => cases hb
  | cons hab _ ih =>
      rcases List.mem_cons.mp hb with rfl | hb
      · exact ⟨_, List.mem_cons_self, hab⟩
      · obtain ⟨a, ha, hab⟩ := ih hb
        exact ⟨a, List.mem_cons_of_mem _ ha, hab⟩

/-- Every file with ACK latencies can be read back: its rows are the items, number for number. -/
theorem writeAckLatency_readBack {aggregate aggOnly : Bool} {firstTstamp : ℤ}
    {conns : List (ConnectionMapKey × RangeManager × AnalyseRange)} {w : AckLatencyWriter}
    (h : writeAckLatency aggregate aggOnly firstTstamp (conns.map WrittenConn.ofKey) = .ok w) :
    ∀ p ∈ w.written, ∀ items ∈ p.2, readLatencyFile (latencyFile items) = some items := by
  obtain ⟨w₀, found, rfl, hwrote⟩ := exists_wrote h
  -- all items that were found are written under the text of a connection
  have hkeys : ∀ is ∈ found, ∀ q ∈ is, Csv.Clean q.2.streamId.toList := by
    intro is his q hq
    obtain ⟨conn, hconn, hitems⟩ := exists_of_mem_forall₂ hwrote.found his
    obtain ⟨c, -, rfl⟩ := List.mem_map.mp hconn
    rw [streamId_of_ackItems hitems q hq]
    exact clean_text c.1
  have hfiles : ∀ {files : DiffTimes} {items : List (ℕ × LatencyItem)}, Filed files items →
      (∀ q ∈ items, Csv.Clean q.2.streamId.toList) →
      ∀ file ∈ files, readLatencyFile (latencyFile file) = some file := by
    intro files items hfiled hclean file hfile
    apply readLatencyFile_latencyFile
    intro lat hlat
    obtain ⟨q, hq, rfl⟩ := hfiled.mem hfile hlat
    exact hclean q hq
  intro p hp
  rcases List.mem_append.mp hp with hp | hp
  · obtain ⟨c, hc, -, hfiled⟩ := exists_of_mem_forall₂ hwrote.written hp
    cases aggOnly with
    | true => cases hc
    | false => exact hfiles hfiled (hkeys c.2 (List.of_mem_zip hc).2)
  · rw [List.mem_singleton.mp hp]
    apply hfiles hwrote.aggr
    cases aggregate with
    | false => exact fun q hq => nomatch hq
    | true =>
        intro q hq
        obtain ⟨is, his, hq⟩ := List.mem_flatten.mp hq
        exact hkeys is his q hq

/-- The connection with the resent segment. -/
theorem writeAckLatency_readBack_resent : ∃ (rm : RangeManager) (w : AckLatencyWriter),
    Run.run RangeManager.senderStep (.new 0) RangeManager.resentSegment = .ok rm ∧
    writeAckLatency true false 10000
      ([(⟨0x1000000, 0x9000000, 0x100, 0x900⟩, rm, rm.wholeMap)].map WrittenConn.ofKey) = .ok w ∧
    (w.written.map fun p => p.2.map List.length) = [[3, 1], [3, 1]] ∧
    ∀ p ∈ w.written, ∀ items ∈ p.2, readLatencyFile (latencyFile items) = some items := by
  have hrun : ∃ rm, Run.run RangeManager.senderStep (.new 0) RangeManager.resentSegment = .ok rm ∧
      (writeAckLatency true false 10000
        ([(⟨0x1000000, 0x9000000, 0x100, 0x900⟩, rm, rm.wholeMap)].map
          WrittenConn.ofKey)).toOption.any (fun w =>
            decide ((w.written.map fun p => p.2.map List.length) = [[3, 1], [3, 1]])) = true :=
    Run.exists_of_any_toOption (by decide +kernel)
  obtain ⟨rm, hrm, hw⟩ := hrun
  obtain ⟨w, hw, hcounts⟩ := Run.exists_of_any_toOption hw
  exact ⟨rm, w, hrm, hw, of_decide_eq_true hcounts, writeAckLatency_readBack hw⟩

end AnalyseTCP
