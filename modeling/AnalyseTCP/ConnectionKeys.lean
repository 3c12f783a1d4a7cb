import AnalyseTCP.CaptureRefinement

/-!
# Connections by name and by port

The address and the ports of a connection as a text, which is in the names of its files and in their
rows, and the order of the connections in the terminal output, where the ports are compared as
numbers.  Neither takes two connections of a capture for one.
-/

namespace AnalyseTCP

/-! ## The source's functions -/

/-- `ntohs` of a `u_short`. -/
def ntohs (port : ℕ) : ℕ := port % 2 ^ 8 * 2 ^ 8 + port / 2 ^ 8 % 2 ^ 8

/-- `ipToStr`: `inet_ntop` of the four bytes in memory. -/
def ipToStr (ip : ℕ) : String :=
  toString (ip % 2 ^ 8) ++ "." ++ toString (ip / 2 ^ 8 % 2 ^ 8) ++ "." ++
    toString (ip / 2 ^ 16 % 2 ^ 8) ++ "." ++ toString (ip / 2 ^ 24 % 2 ^ 8)

def makeHostKey (ip port : ℕ) : String := ipToStr ip ++ ":" ++ toString (ntohs port)

def makeConnKey (srcIp dstIp srcPort dstPort : ℕ) : String :=
  makeHostKey srcIp srcPort ++ "-" ++ makeHostKey dstIp dstPort

/-- `connKey` of the connection. -/
def ConnectionMapKey.text (k : ConnectionMapKey) : String :=
  makeConnKey k.ipSrc k.ipDst k.srcPort k.dstPort

/-- The fields in the order in which `SortedConnectionKeyComparator` looks at them. -/
def ConnectionMapKey.sortedKey (k : ConnectionMapKey) : ℕ ×ₗ ℕ ×ₗ ℕ ×ₗ ℕ :=
  toLex (k.ipSrc, toLex (ntohs k.srcPort, toLex (k.ipDst, ntohs k.dstPort)))

/-- `fillWithSortedConns`; a connection is left out where an equivalent one is. -/
def fillWithSortedConns {α : Type*} (conns : List (ConnectionMapKey × α)) :
    OrdMap (ℕ ×ₗ ℕ ×ₗ ℕ ×ₗ ℕ) (ConnectionMapKey × α) :=
  conns.foldl (fun sorted en => sorted.insert en.1.sortedKey en) .empty

/-! ## Keys from a capture -/

namespace ConnectionMapKey

/-- The fields fit their types. -/
structure Wire (k : ConnectionMapKey) : Prop where
  ipSrc : k.ipSrc < 2 ^ 32
  ipDst : k.ipDst < 2 ^ 32
  srcPort : k.srcPort < 2 ^ 16
  dstPort : k.dstPort < 2 ^ 16

end ConnectionMapKey

theorem raw16_lt (bytes : ℕ → UInt8) (o : ℕ) : raw16 bytes o < 2 ^ 16 := by
  have hlow := (bytes o).toNat_lt
  have hhigh := (bytes (o + 1)).toNat_lt
  unfold raw16
  omega

theorem raw32_lt (bytes : ℕ → UInt8) (o : ℕ) : raw32 bytes o < 2 ^ 32 := by
  have hlow := raw16_lt bytes o
  have hhigh := raw16_lt bytes (o + 2)
  unfold raw32
  omega

theorem Frame.connKey_wire (f : Frame) : f.connKey.Wire :=
  ⟨raw32_lt _ _, raw32_lt _ _, raw16_lt _ _, raw16_lt _ _⟩

namespace Dump

theorem analyseSender_wire {nat : NatConfig} {sent acks : List Frame} {d : Dump}
    (h : analyseSender nat sent acks = .ok d) : ∀ en ∈ d.conns.entries, en.1.Wire := by
  intro en hen
  obtain ⟨f, rest, hsent, -⟩ := exists_of_analyseSender h (OrdMap.find?_eq_some_iff.mpr hen)
  have hmem : f ∈ sentOf en.1 sent := hsent ▸ List.mem_cons_self
  have hkey := of_decide_eq_true (List.mem_filter.mp hmem).2
  exact hkey ▸ f.connKey_wire

/-- The receiver's pass adds no connection. -/
theorem processRecvdFile_wire {nat : NatConfig} {sent acks recvd : List Frame} {d d' : Dump}
    (h : analyseSender nat sent acks = .ok d) (h' : processRecvdFile nat d recvd = .ok d') :
    ∀ en ∈ d'.conns.entries, en.1.Wire := by
  intro en hen
  obtain ⟨conn, hconn, -⟩ := exists_of_processRecvdFile h' (OrdMap.find?_eq_some_iff.mpr hen)
  exact analyseSender_wire h (en.1, conn) (OrdMap.find?_eq_some_iff.mp hconn)

end Dump

/-! ## The texts -/

theorem ntohs_inj {p q : ℕ} (hp : p < 2 ^ 16) (hq : q < 2 ^ 16) (h : ntohs p = ntohs q) : p = q := by
  unfold ntohs at h
  omega

theorem toDigits_inj {m n : ℕ} (h : Nat.toDigits 10 m = Nat.toDigits 10 n) : m = n := by
  rw [← Nat.ofDigitChars_ten_toDigits (n := m), h, Nat.ofDigitChars_ten_toDigits]

theorem notMem_toDigits {c : Char} (hc : c.isDigit = false) (n : ℕ) : c ∉ Nat.toDigits 10 n := by
  intro hmem
  rw [Nat.isDigit_of_mem_toDigits (by decide) (by decide) hmem] at hc
  exact absurd hc (by decide)

/-- What is in front of the first `c`, and what is behind it. -/
theorem cut_inj {c : Char} {x x' l l' : List Char} (hx : c ∉ x) (hx' : c ∉ x')
    (h : x ++ c :: l = x' ++ c :: l') : x = x' ∧ l = l' := by
  induction x generalizing x' with
  | nil =>
      cases x' with
      | nil => exact ⟨rfl, List.tail_eq_of_cons_eq h⟩
      | cons ch x' =>
          obtain ⟨rfl, -⟩ := List.cons.inj h
          exact absurd List.mem_cons_self hx'
  | cons ch x ih =>
      cases x' with
      | nil =>
          obtain ⟨rfl, -⟩ := List.cons.inj h
          exact absurd List.mem_cons_self hx
      | cons ch' x' =>
          obtain ⟨rfl, htail⟩ := List.cons.inj h
          obtain ⟨rfl, hl⟩ := ih (fun hmem => hx (List.mem_cons_of_mem _ hmem))
            (fun hmem => hx' (List.mem_cons_of_mem _ hmem)) htail
          exact ⟨rfl, hl⟩

/-- A number, ended by a character. -/
theorem number_inj {c : Char} (hc : c.isDigit = false) {m n : ℕ} {l l' : List Char}
    (h : Nat.toDigits 10 m ++ c :: l = Nat.toDigits 10 n ++ c :: l') : m = n ∧ l = l' := by
  obtain ⟨hdigits, hl⟩ := cut_inj (notMem_toDigits hc m) (notMem_toDigits hc n) h
  exact ⟨toDigits_inj hdigits, hl⟩

theorem toList_makeHostKey (ip port : ℕ) :
    (makeHostKey ip port).toList = Nat.toDigits 10 (ip % 2 ^ 8) ++ '.' ::
      (Nat.toDigits 10 (ip / 2 ^ 8 % 2 ^ 8) ++ '.' ::
        (Nat.toDigits 10 (ip / 2 ^ 16 % 2 ^ 8) ++ '.' ::
          (Nat.toDigits 10 (ip / 2 ^ 24 % 2 ^ 8) ++ ':' :: Nat.toDigits 10 (ntohs port)))) := by
  simp [makeHostKey, ipToStr]

/-- A host, ended by a character. -/
theorem makeHostKey_inj {c : Char} (hc : c.isDigit = false) {ip ip' port port' : ℕ}
    {l l' : List Char} (hip : ip < 2 ^ 32) (hip' : ip' < 2 ^ 32) (hport : port < 2 ^ 16)
    (hport' : port' < 2 ^ 16)
    (h : (makeHostKey ip port).toList ++ c :: l = (makeHostKey ip' port').toList ++ c :: l') :
    ip = ip' ∧ port = port' ∧ l = l' := by
  rw [toList_makeHostKey, toList_makeHostKey] at h
  simp only [List.append_assoc, List.cons_append] at h
  obtain ⟨h₀, h⟩ := number_inj (by decide) h
  obtain ⟨h₁, h⟩ := number_inj (by decide) h
  obtain ⟨h₂, h⟩ := number_inj (by decide) h
  obtain ⟨h₃, h⟩ := number_inj (by decide) h
  obtain ⟨h₄, h⟩ := number_inj hc h
  exact ⟨by omega, ntohs_inj hport hport' h₄, h⟩

namespace ConnectionMapKey

variable {k k' : ConnectionMapKey}

theorem toList_text (k : ConnectionMapKey) : k.text.toList =
    (makeHostKey k.ipSrc k.srcPort).toList ++ '-' :: (makeHostKey k.ipDst k.dstPort).toList := by
  simp [text, makeConnKey]

/-- A connection, ended by a character. -/
theorem text_cut_inj {c : Char} (hc : c.isDigit = false) (hk : k.Wire) (hk' : k'.Wire)
    {l l' : List Char} (h : k.text.toList ++ c :: l = k'.text.toList ++ c :: l') :
    k = k' ∧ l = l' := by
  rw [toList_text, toList_text] at h
  simp only [List.append_assoc, List.cons_append] at h
  obtain ⟨hipSrc, hsrcPort, h⟩ :=
    makeHostKey_inj (by decide) hk.ipSrc hk'.ipSrc hk.srcPort hk'.srcPort h
  obtain ⟨hipDst, hdstPort, h⟩ := makeHostKey_inj hc hk.ipDst hk'.ipDst hk.dstPort hk'.dstPort h
  refine ⟨?_, h⟩
  cases k
  cases k'
  subst hipSrc hsrcPort hipDst hdstPort
  rfl

theorem text_inj (hk : k.Wire) (hk' : k'.Wire) (h : k.text = k'.text) : k = k' :=
  (text_cut_inj (c := '.') (by decide) hk hk'
    (congrArg (fun t : String => t.toList ++ ['.']) h)).1

theorem sortedKey_inj (hk : k.Wire) (hk' : k'.Wire) (h : k.sortedKey = k'.sortedKey) : k = k' := by
  simp only [sortedKey, toLex_inj, Prod.mk.injEq] at h
  obtain ⟨hipSrc, hsrcPort, hipDst, hdstPort⟩ := h
  have hsrc := ntohs_inj hk.srcPort hk'.srcPort hsrcPort
  have hdst := ntohs_inj hk.dstPort hk'.dstPort hdstPort
  cases k
  cases k'
  subst hipSrc hsrc hipDst hdst
  rfl

end ConnectionMapKey

/-! ## The connections in the order of the output -/

theorem insertEntry_perm {α β : Type*} [LinearOrder α] {k : α} {v : β} {l : List (α × β)}
    (hfree : ∀ e ∈ l, e.1 ≠ k) : (OrdMap.insertEntry k v l).Perm ((k, v) :: l) := by
  induction l with
  | nil => exact .refl _
  | cons e l ih =>
      obtain ⟨hne, hl⟩ := List.forall_mem_cons.mp hfree
      rw [OrdMap.insertEntry]
      by_cases hlt : e.1 < k
      · rw [if_pos hlt]
        exact ((ih hl).cons e).trans (.swap _ _ _)
      · rw [if_neg hlt, if_neg hne]

/-- Every connection of a capture is there, once. -/
theorem fillWithSortedConns_perm {α : Type*} {conns : List (ConnectionMapKey × α)}
    (hwire : ∀ en ∈ conns, en.1.Wire) (hkeys : (conns.map Prod.fst).Nodup) :
    ((fillWithSortedConns conns).entries.map Prod.snd).Perm conns := by
  have hfold : ∀ (rest done : List (ConnectionMapKey × α))
      (m : OrdMap (ℕ ×ₗ ℕ ×ₗ ℕ ×ₗ ℕ) (ConnectionMapKey × α)), (∀ en ∈ done ++ rest, en.1.Wire) →
      ((done ++ rest).map Prod.fst).Nodup →
      m.entries.Perm (done.map fun en => (en.1.sortedKey, en)) →
      ((rest.foldl (fun sorted en => sorted.insert en.1.sortedKey en) m).entries.map Prod.snd).Perm
        (done ++ rest) := by
    intro rest
    induction rest with
    | nil =>
        intro done m _ _ hm
        rw [List.append_nil, List.foldl_nil]
        have hsnd := hm.map Prod.snd
        rw [List.map_map] at hsnd
        exact hsnd.trans (.of_eq (List.map_id done))
    | cons en rest ih =>
        intro done m hwire hkeys hm
        -- the connection is not there yet under another key
        have hfree : ∀ e ∈ m.entries, e.1 ≠ en.1.sortedKey := by
          intro e he heq
          obtain ⟨en', hen', rfl⟩ := List.mem_map.mp (hm.mem_iff.mp he)
          have hsame := ConnectionMapKey.sortedKey_inj (hwire en' (by simp [hen']))
            (hwire en (by simp)) heq
          rw [List.map_append, List.nodup_append] at hkeys
          exact hkeys.2.2 en'.1 (List.mem_map_of_mem hen') en.1 (by simp) hsame
        rw [List.foldl_cons, List.append_cons]
        rw [List.append_cons] at hwire hkeys
        apply ih (done ++ [en]) _ hwire hkeys
        rw [List.map_append]
        exact (insertEntry_perm hfree).trans ((hm.cons _).trans (List.perm_append_singleton _ _).symm)
  exact hfold conns [] .empty hwire hkeys (.refl _)

theorem sortedKey_of_mem {α : Type*} {conns : List (ConnectionMapKey × α)} :
    ∀ e ∈ (fillWithSortedConns conns).entries, e.1 = e.2.1.sortedKey := by
  have hfold : ∀ (conns : List (ConnectionMapKey × α))
      (m : OrdMap (ℕ ×ₗ ℕ ×ₗ ℕ ×ₗ ℕ) (ConnectionMapKey × α)),
      (∀ e ∈ m.entries, e.1 = e.2.1.sortedKey) →
      ∀ e ∈ (conns.foldl (fun sorted en => sorted.insert en.1.sortedKey en) m).entries,
        e.1 = e.2.1.sortedKey := by
    intro conns
    induction conns with
    | nil => exact fun _ hm => hm
    | cons en conns ih =>
        intro m hm
        apply ih
        intro e he
        rcases OrdMap.mem_insert he with rfl | he
        · rfl
        · exact hm e he
  exact hfold conns .empty fun _ he => nomatch he

namespace Dump

/-- The output visits every connection of the captures once, in the order of the addresses and the
numbers of the ports, and no two connections have the same text. -/
theorem fillWithSortedConns_visits {nat : NatConfig} {sent acks recvd : List Frame} {d d' : Dump}
    (h : analyseSender nat sent acks = .ok d) (h' : processRecvdFile nat d recvd = .ok d') :
    let visited := (fillWithSortedConns d'.conns.entries).entries.map Prod.snd
    visited.Perm d'.conns.entries ∧
      visited.Pairwise (fun a b => a.1.sortedKey < b.1.sortedKey) ∧
      (visited.map fun en => en.1.text).Nodup := by
  intro visited
  have hwire := processRecvdFile_wire h h'
  have hperm : visited.Perm d'.conns.entries :=
    fillWithSortedConns_perm hwire (OrdMap.nodup_keys _)
  refine ⟨hperm, ?_, ?_⟩
  · apply List.pairwise_map.mpr
    apply (fillWithSortedConns d'.conns.entries).sorted.imp_of_mem
    intro a b ha hb hlt
    rw [← sortedKey_of_mem a ha, ← sortedKey_of_mem b hb]
    exact hlt
  · have hkeys : (d'.conns.entries.map fun en => en.1).Nodup := OrdMap.nodup_keys _
    apply (hperm.map fun en => en.1.text).nodup_iff.mpr
    apply List.pairwise_map.mpr
    apply (List.pairwise_map.mp hkeys).imp_of_mem
    intro a b ha hb hne htext
    exact hne (ConnectionMapKey.text_inj (hwire a ha) (hwire b hb) htext)

/-- Two senders. -/
theorem fillWithSortedConns_visits_two :
    ∃ d d', analyseSender {} [shortFrame ⟨5, 0⟩ 1 9 0 0 0x10 10, shortFrame ⟨6, 0⟩ 2 9 0 0 0x10 20]
        [] = .ok d ∧ processRecvdFile {} d [] = .ok d' ∧ d'.conns.entries.length = 2 ∧
      let visited := (fillWithSortedConns d'.conns.entries).entries.map Prod.snd
      visited.Perm d'.conns.entries ∧
        visited.Pairwise (fun a b => a.1.sortedKey < b.1.sortedKey) ∧
        (visited.map fun en => en.1.text).Nodup := by
  have hrun : (analyseSender {} [shortFrame ⟨5, 0⟩ 1 9 0 0 0x10 10,
      shortFrame ⟨6, 0⟩ 2 9 0 0 0x10 20] []).toOption.any (fun d =>
        (processRecvdFile {} d []).toOption.any (fun d' => d'.conns.entries.length == 2)) = true := by
    decide +kernel
  obtain ⟨d, hd, hrecvd⟩ := Run.exists_of_any_toOption hrun
  obtain ⟨d', hd', hlength⟩ := Run.exists_of_any_toOption hrecvd
  exact ⟨d, d', hd, hd', beq_iff_eq.mp hlength, fillWithSortedConns_visits hd hd'⟩

end Dump

end AnalyseTCP
