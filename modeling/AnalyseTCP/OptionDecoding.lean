import AnalyseTCP.Lib.Run
import AnalyseTCP.TcpOptions

/-!
# What `parseTCPOptions` decodes

Well-formed options are written down as the sender encodes them, and the loop is run over the
encoding.  Timestamps come out as they went in.  Of a SACK option with `n` blocks, block `i` is read
`4 * n * i` bytes behind the first one instead of `8 * i`, and right edges keep 32 bits.
-/

namespace AnalyseTCP

namespace Dump

/-! ## Options as they are sent -/

inductive TcpOption
  | nop
  | timestamp (val echo : UInt32)
  | sack (blocks : List (UInt32 × UInt32))
  /-- an option of another kind -/
  | other (kind : UInt8) (data : List UInt8)

def be32 (x : UInt32) : List UInt8 :=
  [UInt8.ofNat (x.toNat / 2 ^ 24), UInt8.ofNat (x.toNat / 2 ^ 16), UInt8.ofNat (x.toNat / 2 ^ 8),
    UInt8.ofNat x.toNat]

namespace TcpOption

/-- The data behind the size byte. -/
def payload : TcpOption → List UInt8
  | nop => []
  | timestamp val echo => be32 val ++ be32 echo
  | sack blocks => blocks.flatMap fun b => be32 b.1 ++ be32 b.2
  | other _ data => data

def encode (opt : TcpOption) : List UInt8 :=
  match opt with
  | nop => [1]
  | timestamp _ _ => 8 :: 10 :: opt.payload
  | sack blocks => 5 :: UInt8.ofNat (2 + 8 * blocks.length) :: opt.payload
  | other kind data => kind :: UInt8.ofNat (2 + data.length) :: opt.payload

/-- The size fits its byte, and an option of another kind has another kind. -/
def Wf : TcpOption → Prop
  | nop | timestamp _ _ => True
  | sack blocks => 2 + 8 * blocks.length < 2 ^ 8
  | other kind data =>
      kind ≠ 0 ∧ kind ≠ 1 ∧ kind ≠ 5 ∧ kind ≠ 8 ∧ 2 + data.length < 2 ^ 8

instance : (opt : TcpOption) → Decidable opt.Wf
  | nop | timestamp _ _ => .isTrue trivial
  | sack _ => inferInstanceAs (Decidable (_ < _))
  | other _ _ => inferInstanceAs (Decidable (_ ∧ _))

end TcpOption

def encodeAll (area : List TcpOption) : List UInt8 := area.flatMap TcpOption.encode

/-- The bytes stand in memory from `o` on. -/
def HoldsAt (opts : ℕ → UInt8) : ℕ → List UInt8 → Prop
  | _, [] => True
  | o, b :: bs => opts o = b ∧ HoldsAt opts (o + 1) bs

instance decidableHoldsAt (opts : ℕ → UInt8) :
    (o : ℕ) → (bs : List UInt8) → Decidable (HoldsAt opts o bs)
  | _, [] => .isTrue trivial
  | o, _ :: bs =>
      have := decidableHoldsAt opts (o + 1) bs
      inferInstanceAs (Decidable (_ ∧ _))

/-- The option area in memory: well-formed options that fill it or are ended by an EOL. -/
structure OptionArea (opts : ℕ → UInt8) (optionLength : ℕ) (area : List TcpOption) : Prop where
  wf : ∀ opt ∈ area, opt.Wf
  held : HoldsAt opts 0 (encodeAll area)
  fits : (encodeAll area).length ≤ optionLength
  ended : (encodeAll area).length < optionLength → opts (encodeAll area).length = 0
  size : optionLength < 2 ^ 32

/-- The values of the timestamp options, in order. -/
def timestamps (area : List TcpOption) : List (UInt32 × UInt32) :=
  area.filterMap fun
    | .timestamp val echo => some (val, echo)
    | _ => none

/-- The SACK options behind `o`: where each starts, and its blocks. -/
def sackOptions : ℕ → List TcpOption → List (ℕ × List (UInt32 × UInt32))
  | _, [] => []
  | o, opt :: area =>
      match opt with
      | .sack blocks => (o, blocks) :: sackOptions (o + opt.encode.length) area
      | _ => sackOptions (o + opt.encode.length) area

/-- The relative numbers of a block's edges. -/
def AckReference.edges (conn : AckReference) (b : UInt32 × UInt32) : Except Abort (ℕ × ℕ) := do
  let left ← conn.getRelativeSequenceNumber b.1.toNat
  let right ← conn.getRelativeSequenceNumber b.2.toNat
  return (left, right)

/-! ## Bytes and words -/

section Bytes

variable {opts : ℕ → UInt8}

theorem holdsAt_append {o : ℕ} {bs cs : List UInt8} :
    HoldsAt opts o (bs ++ cs) ↔ HoldsAt opts o bs ∧ HoldsAt opts (o + bs.length) cs := by
  induction bs generalizing o with
  | nil =>
      show _ ↔ True ∧ _
      rw [true_and]
      rfl
  | cons b bs ih =>
      have hlen : o + (b :: bs).length = o + 1 + bs.length := by
        rw [List.length_cons]
        omega
      rw [List.cons_append, hlen, HoldsAt, HoldsAt, ih, and_assoc]

theorem word32_of_holdsAt {o : ℕ} {x : UInt32} (h : HoldsAt opts o (be32 x)) :
    word32 opts o = x.toNat := by
  obtain ⟨h₀, h₁, h₂, h₃, -⟩ := h
  have hlt : x.toNat < 2 ^ 32 := x.toNat_lt
  unfold word32
  rw [h₀, h₁, h₂, h₃]
  simp only [UInt8.toNat_ofNat']
  omega

theorem length_blocks (blocks : List (UInt32 × UInt32)) :
    (TcpOption.sack blocks).payload.length = 8 * blocks.length := by
  induction blocks with
  | nil => rfl
  | cons b blocks ih =>
      have hcons : (TcpOption.sack (b :: blocks)).payload =
          be32 b.1 ++ be32 b.2 ++ (TcpOption.sack blocks).payload := List.flatMap_cons
      rw [hcons, List.length_append, ih, List.length_cons]
      show 8 + 8 * blocks.length = _
      omega

/-- The words of block `i` stand `8 * i` bytes behind the first one. -/
theorem words_of_block {o i : ℕ} {blocks : List (UInt32 × UInt32)} {b : UInt32 × UInt32}
    (h : HoldsAt opts o (TcpOption.sack blocks).payload) (hb : blocks[i]? = some b) :
    word32 opts (o + 8 * i) = b.1.toNat ∧ word32 opts (o + 8 * i + 4) = b.2.toNat := by
  induction blocks generalizing o i with
  | nil => cases hb
  | cons c blocks ih =>
      have hcons : (TcpOption.sack (c :: blocks)).payload =
          be32 c.1 ++ be32 c.2 ++ (TcpOption.sack blocks).payload := List.flatMap_cons
      rw [hcons, holdsAt_append, holdsAt_append] at h
      obtain ⟨⟨hleft, hright⟩, hrest⟩ := h
      cases i with
      | zero =>
          obtain rfl := Option.some.inj hb
          exact ⟨word32_of_holdsAt hleft, word32_of_holdsAt hright⟩
      | succ i =>
          have hlen : (be32 c.1 ++ be32 c.2).length = 8 := rfl
          rw [hlen] at hrest
          have hword := ih hrest hb
          rw [show o + 8 * (i + 1) = o + 8 + 8 * i by omega]
          exact hword

end Bytes

/-! ## The loop over an encoding -/

section Loop

variable {conn : AckReference} {opts : ℕ → UInt8} {optionLength : ℕ}

/-- What the loop does with a well-formed option at `o`. -/
def applyOption (conn : AckReference) (opts : ℕ → UInt8) (o : ℕ) (opt : TcpOption)
    (data : DataSeg) : Except Abort DataSeg :=
  match opt with
  | .nop | .other _ _ => .ok data
  | .timestamp val echo => .ok { data with tstampTcp := val.toNat, tstampTcpEcho := echo.toNat }
  | .sack blocks =>
      (readSacks conn opts o blocks.length).map fun sacks =>
        { data with sacks := true, tcpSacks := data.tcpSacks ++ sacks }

def applyAll (conn : AckReference) (opts : ℕ → UInt8) :
    ℕ → List TcpOption → DataSeg → Except Abort DataSeg
  | _, [], data => .ok data
  | o, opt :: area, data => do
      let data ← applyOption conn opts o opt data
      applyAll conn opts (o + opt.encode.length) area data

theorem length_encode_pos (opt : TcpOption) : 0 < opt.encode.length := by
  cases opt <;> exact Nat.succ_pos _

theorem encode_head {opt : TcpOption} (hwf : opt.Wf) {o : ℕ} (h : HoldsAt opts o opt.encode) :
    opts o ≠ 0 := by
  cases opt with
  | nop =>
      rw [show opts o = 1 from h.1]
      decide
  | timestamp val echo =>
      rw [show opts o = 8 from h.1]
      decide
  | sack blocks =>
      rw [show opts o = 5 from h.1]
      decide
  | other kind data =>
      rw [show opts o = kind from h.1]
      exact hwf.1

/-- An option that is not a NOP is parsed as `applyOption` says, and its size byte is its length. -/
theorem parseOption_of_held {opt : TcpOption} (hwf : opt.Wf) (hnop : opt ≠ .nop) {o : ℕ}
    (h : HoldsAt opts o opt.encode) (data : DataSeg) :
    opts o ≠ 1 ∧ (opts (o + 1)).toNat = opt.encode.length ∧
      parseOption (some conn) opts data o = applyOption conn opts o opt data := by
  -- one case per kind; the size byte is read back from the encoding
  cases opt with
  | nop => exact absurd rfl hnop
  | timestamp val echo =>
      have hkind : opts o = 8 := h.1
      have hsize : opts (o + 1) = 10 := h.2.1
      have hwords : HoldsAt opts (o + 2) (be32 val ++ be32 echo) := h.2.2
      obtain ⟨hval, hecho⟩ := holdsAt_append.mp hwords
      have hval' := word32_of_holdsAt hval
      have hecho' : word32 opts (o + 6) = echo.toNat := word32_of_holdsAt hecho
      refine ⟨?_, ?_, ?_⟩
      · rw [hkind]
        decide
      · rw [hsize]
        rfl
      · unfold parseOption applyOption
        simp only [hkind, hval', hecho']
        rfl
  | sack blocks =>
      have hkind : opts o = 5 := h.1
      have hsize : opts (o + 1) = UInt8.ofNat (2 + 8 * blocks.length) := h.2.1
      have hlt : 2 + 8 * blocks.length < 2 ^ 8 := hwf
      have hnat : (opts (o + 1)).toNat = 2 + 8 * blocks.length := by
        rw [hsize, UInt8.toNat_ofNat', Nat.mod_eq_of_lt hlt]
      have hblocks : sackBlocks opts o = blocks.length := by
        unfold sackBlocks
        rw [hnat]
        omega
      refine ⟨?_, ?_, ?_⟩
      · rw [hkind]
        decide
      · rw [hnat]
        show _ = (TcpOption.sack blocks).payload.length + 1 + 1
        rw [length_blocks]
        omega
      · unfold parseOption applyOption
        simp only [hkind, hblocks]
        cases readSacks conn opts o blocks.length <;> rfl
  | other kind bytes =>
      have hkind : opts o = kind := h.1
      have hsize : opts (o + 1) = UInt8.ofNat (2 + bytes.length) := h.2.1
      obtain ⟨-, hone, hfive, height, hlt⟩ := hwf
      refine ⟨?_, ?_, ?_⟩
      · rw [hkind]
        exact hone
      · rw [hsize, UInt8.toNat_ofNat', Nat.mod_eq_of_lt hlt]
        show _ = bytes.length + 1 + 1
        omega
      · unfold parseOption applyOption
        simp only [hkind, if_neg hfive, if_neg height]
        rfl

theorem parseLoop_area {area : List TcpOption} {o fuel : ℕ} (hsize : optionLength < 2 ^ 32)
    (hwf : ∀ opt ∈ area, opt.Wf) (hheld : HoldsAt opts o (encodeAll area))
    (hfits : o + (encodeAll area).length ≤ optionLength)
    (hended : o + (encodeAll area).length < optionLength → opts (o + (encodeAll area).length) = 0)
    (hfirst : area ≠ [] → opts 0 ≠ 0) (hfuel : optionLength - o ≤ fuel) (data : DataSeg) :
    parseLoop (some conn) opts optionLength fuel data o =
      some (applyAll conn opts o area data) := by
  -- over the options; the offset, the fuel and the segment decoded so far go along
  induction area generalizing o fuel data with
  | nil =>
      by_cases henters : opts 0 ≠ 0 ∧ o < optionLength
      · -- an area that does not fill the options is ended by an EOL
        have hend : opts o = 0 := hended henters.2
        cases fuel with
        | zero => omega
        | succ fuel =>
            rw [parseLoop, if_pos henters, if_pos hend]
            rfl
      · cases fuel with
        | zero | succ fuel =>
            rw [parseLoop, if_neg henters]
            rfl
  | cons opt area ih =>
      obtain ⟨hopt, harea⟩ := List.forall_mem_cons.mp hwf
      have hcons : encodeAll (opt :: area) = opt.encode ++ encodeAll area := List.flatMap_cons
      have hlen := length_encode_pos opt
      rw [hcons, List.length_append] at hfits hended
      rw [hcons, holdsAt_append] at hheld
      have hzero := hfirst (List.cons_ne_nil opt area)
      have henters : opts 0 ≠ 0 ∧ o < optionLength := ⟨hzero, by omega⟩
      have hnext : add32 o opt.encode.length = o + opt.encode.length :=
        Nat.mod_eq_of_lt (by omega)
      have hrest : ∀ fuel' data', optionLength - (o + opt.encode.length) ≤ fuel' →
          parseLoop (some conn) opts optionLength fuel' data' (o + opt.encode.length) =
            some (applyAll conn opts (o + opt.encode.length) area data') := by
        intro fuel' data' hfuel'
        apply ih harea hheld.2 (by omega) _ (fun _ => hzero) hfuel'
        intro hlt
        rw [Nat.add_assoc] at hlt ⊢
        exact hended hlt
      cases fuel with
      | zero => omega
      | succ fuel =>
          rw [parseLoop, if_pos henters, if_neg (encode_head hopt hheld.1)]
          by_cases hnop : opt = .nop
          · -- a NOP has no size byte
            subst hnop
            have hkind : opts o = 1 := hheld.1.1
            have hstep : add32 o 1 = o + TcpOption.nop.encode.length := hnext
            rw [if_pos hkind, hstep, hrest fuel data (by omega)]
            rfl
          · obtain ⟨hone, hbyte, hparse⟩ := parseOption_of_held hopt hnop hheld.1 data
            rw [if_neg hone, hparse, applyAll]
            cases applyOption conn opts o opt data with
            | error e => rfl
            | ok data' =>
                dsimp only
                rw [hbyte, hnext, hrest fuel data' (by omega)]
                rfl

/-! ## What is decoded -/

/-- The last timestamp option wins. -/
def setTimes (data : DataSeg) (times : List (UInt32 × UInt32)) : DataSeg :=
  times.foldl (fun d t => { d with tstampTcp := t.1.toNat, tstampTcpEcho := t.2.toNat }) data

theorem applyAll_of_no_sack {o : ℕ} {area : List TcpOption} (h : sackOptions o area = [])
    (data : DataSeg) : applyAll conn opts o area data = .ok (setTimes data (timestamps area)) := by
  induction area generalizing o data with
  | nil => rfl
  | cons opt area ih =>
      cases opt with
      | nop | other => exact ih h data
      | timestamp val echo => exact ih h _
      | sack blocks => cases h

theorem applyAll_of_one_sack {o q : ℕ} {area : List TcpOption} {blocks : List (UInt32 × UInt32)}
    (h : sackOptions o area = [(q, blocks)]) (data : DataSeg) :
    applyAll conn opts o area data = (readSacks conn opts q blocks.length).map fun sacks =>
      setTimes { data with sacks := true, tcpSacks := data.tcpSacks ++ sacks }
        (timestamps area) := by
  induction area generalizing o data with
  | nil => cases h
  | cons opt area ih =>
      cases opt with
      | nop | other => exact ih h data
      | timestamp val echo => exact ih h _
      | sack bs =>
          obtain ⟨hhead, hrest⟩ := List.cons_eq_cons.mp h
          obtain ⟨rfl, rfl⟩ := Prod.mk.inj hhead
          rw [applyAll, applyOption]
          cases readSacks conn opts o bs.length with
          | error e => rfl
          | ok sacks => exact applyAll_of_no_sack hrest _

end Loop

/-! ## Blocks -/

section Blocks

variable {conn : AckReference} {opts : ℕ → UInt8}

theorem readBlock_of_words {o : ℕ} {b : UInt32 × UInt32} {p : ℕ × ℕ}
    (hleft : word32 opts o = b.1.toNat) (hright : word32 opts (o + 4) = b.2.toNat)
    (h : conn.edges b = .ok p) : readBlock conn opts o = .ok (p.1, p.2 % 2 ^ 32) := by
  obtain ⟨left, hl, h⟩ := Run.exists_of_bind_ok h
  obtain ⟨right, hr, h⟩ := Run.exists_of_bind_ok h
  obtain rfl := Except.ok.inj h
  unfold readBlock
  simp only [hleft, hright, hl, hr]
  rfl

theorem readSacks_eq_ok_iff {o n : ℕ} {sacks : List (ℕ × ℕ)} (hlen : sacks.length = n) :
    readSacks conn opts o n = .ok sacks ↔
      ∀ i p, sacks[i]? = some p → readBlock conn opts (blockOffset o n i) = .ok p := by
  unfold readSacks
  rw [Run.mapM_eq_ok_iff, List.forall₂_iff_get]
  constructor
  · rintro ⟨-, h⟩ i p hp
    obtain ⟨hi, rfl⟩ := List.getElem?_eq_some_iff.mp hp
    have hrange : i < (List.range n).length := by
      rw [List.length_range]
      omega
    have hblock := h i hrange hi
    rw [List.get_eq_getElem, List.getElem_range] at hblock
    exact hblock
  · intro h
    refine ⟨by rw [List.length_range, hlen], fun i hi hi' => ?_⟩
    rw [List.get_eq_getElem, List.getElem_range]
    exact h i _ (List.getElem?_eq_getElem hi')

/-- Up to two blocks are read where they stand, and right edges must fit 32 bits; with more blocks,
what is read in their place must happen to be the same. -/
def SacksSound (conn : AckReference) (opts : ℕ → UInt8) (o : ℕ) (sacks : List (ℕ × ℕ)) : Prop :=
  if sacks.length ≤ 2 then ∀ p ∈ sacks, p.2 < 2 ^ 32
  else ∀ i p, sacks[i]? = some p →
    readBlock conn opts (blockOffset o sacks.length i) = .ok p

theorem readSacks_eq_ok_iff_sound {o : ℕ} {blocks : List (UInt32 × UInt32)}
    {sacks : List (ℕ × ℕ)} (hheld : HoldsAt opts (o + 2) (TcpOption.sack blocks).payload)
    (hmap : blocks.mapM conn.edges = .ok sacks) :
    readSacks conn opts o blocks.length = .ok sacks ↔ SacksSound conn opts o sacks := by
  have hedges := Run.mapM_eq_ok_iff.mp hmap
  have hlen : sacks.length = blocks.length := hedges.length_eq.symm
  rw [readSacks_eq_ok_iff hlen]
  unfold SacksSound
  rw [hlen]
  split_ifs with hshort
  · -- with one or two blocks the stride is right
    have hread : ∀ i p, sacks[i]? = some p →
        readBlock conn opts (blockOffset o blocks.length i) = .ok (p.1, p.2 % 2 ^ 32) := by
      intro i p hp
      obtain ⟨hi, rfl⟩ := List.getElem?_eq_some_iff.mp hp
      have hi' : i < blocks.length := by omega
      have hoffset : blockOffset o blocks.length i = o + 2 + 8 * i := by
        unfold blockOffset
        rcases Nat.lt_or_ge i 1 with hzero | hone
        · have : i = 0 := by omega
          subst this
          omega
        · have hi₁ : i = 1 := by omega
          have hn : blocks.length = 2 := by omega
          rw [hi₁, hn]
      obtain ⟨hleft, hright⟩ := words_of_block hheld (List.getElem?_eq_getElem hi')
      rw [hoffset]
      exact readBlock_of_words hleft hright ((List.forall₂_iff_get.mp hedges).2 i hi' hi)
    constructor
    · intro h p hp
      obtain ⟨i, hi⟩ := List.getElem?_of_mem hp
      have heq := (hread i p hi).symm.trans (h i p hi)
      have hright : p.2 % 2 ^ 32 = p.2 := (Prod.ext_iff.mp (Except.ok.inj heq)).2
      rw [← hright]
      exact Nat.mod_lt _ (by decide)
    · intro h i p hp
      have hlt := h p (List.mem_of_getElem? hp)
      rw [hread i p hp, Nat.mod_eq_of_lt hlt]
  · exact Iff.rfl

theorem holdsAt_of_sackOptions {area : List TcpOption} {o q : ℕ}
    {blocks : List (UInt32 × UInt32)} (hheld : HoldsAt opts o (encodeAll area))
    (h : (q, blocks) ∈ sackOptions o area) :
    HoldsAt opts (q + 2) (TcpOption.sack blocks).payload := by
  induction area generalizing o with
  | nil => cases h
  | cons opt area ih =>
      have hcons : encodeAll (opt :: area) = opt.encode ++ encodeAll area := List.flatMap_cons
      rw [hcons, holdsAt_append] at hheld
      cases opt with
      | nop | timestamp | other => exact ih hheld.2 h
      | sack bs =>
          rcases List.mem_cons.mp h with heq | h
          · obtain ⟨rfl, rfl⟩ := Prod.mk.inj heq
            exact hheld.1.2.2
          · exact ih hheld.2 h

end Blocks

/-- Of a well-formed option area with one timestamp and one SACK option, `parseTCPOptions` decodes
the values and the blocks exactly when the blocks are read soundly. -/
theorem parseTCPOptions_decodes_iff {conn : AckReference} {opts : ℕ → UInt8} {optionLength : ℕ}
    {area : List TcpOption} (harea : OptionArea opts optionLength area) {val echo : UInt32}
    (htime : timestamps area = [(val, echo)]) {o : ℕ} {blocks : List (UInt32 × UInt32)}
    (hsack : sackOptions 0 area = [(o, blocks)]) {sacks : List (ℕ × ℕ)}
    (hmap : blocks.mapM conn.edges = .ok sacks) (data : DataSeg) :
    parseTCPOptions (some conn) opts optionLength data = some (.ok
        { data with
          tstampTcp := val.toNat
          tstampTcpEcho := echo.toNat
          sacks := true
          tcpSacks := data.tcpSacks ++ sacks }) ↔
      SacksSound conn opts o sacks := by
  have hfirst : area ≠ [] → opts 0 ≠ 0 := by
    intro hne
    cases area with
    | nil => exact absurd rfl hne
    | cons opt area =>
        have hcons : encodeAll (opt :: area) = opt.encode ++ encodeAll area := List.flatMap_cons
        have hheld := harea.held
        rw [hcons, holdsAt_append] at hheld
        exact encode_head (harea.wf opt List.mem_cons_self) hheld.1
  have hfits : 0 + (encodeAll area).length ≤ optionLength := by
    rw [Nat.zero_add]
    exact harea.fits
  have hended : 0 + (encodeAll area).length < optionLength →
      opts (0 + (encodeAll area).length) = 0 := by
    rw [Nat.zero_add]
    exact harea.ended
  have hheld : HoldsAt opts (o + 2) (TcpOption.sack blocks).payload := by
    apply holdsAt_of_sackOptions harea.held
    rw [hsack]
    exact List.mem_singleton_self _
  unfold parseTCPOptions
  rw [parseLoop_area harea.size harea.wf harea.held hfits hended hfirst (Nat.sub_le _ _),
    applyAll_of_one_sack hsack, htime, ← readSacks_eq_ok_iff_sound hheld hmap]
  -- an edge that cannot be made relative aborts the program, and then nothing is decoded
  cases readSacks conn opts o blocks.length with
  | error e => exact iff_of_false (fun h => nomatch Option.some.inj h) fun h => nomatch h
  | ok read =>
      constructor
      · intro h
        have hdata := Except.ok.inj (Option.some.inj h)
        have hsacks : data.tcpSacks ++ read = data.tcpSacks ++ sacks := congrArg (·.tcpSacks) hdata
        rw [List.append_cancel_left hsacks]
      · intro h
        rw [Except.ok.inj h]
        rfl

/-- Memory that starts with these bytes. -/
def memory (bytes : List UInt8) : ℕ → UInt8 := fun i => bytes.getD i 0

/-- Two NOPs, a timestamp, and two blocks. -/
def twoBlocks : List TcpOption :=
  [.nop, .nop, .timestamp 7 9, .nop, .nop, .sack [(100, 200), (300, 400)]]

theorem parseTCPOptions_decodes_iff_two :
    parseTCPOptions (some ⟨0, 0, 0⟩) (memory (encodeAll twoBlocks)) 32 {} =
      some (.ok
        { tstampTcp := 7
          tstampTcpEcho := 9
          sacks := true
          tcpSacks := [(100, 200), (300, 400)] }) := by
  have harea : OptionArea (memory (encodeAll twoBlocks)) 32 twoBlocks :=
    ⟨by decide, by decide, by decide, by decide, by decide⟩
  have hsound : SacksSound ⟨0, 0, 0⟩ (memory (encodeAll twoBlocks)) 14
      [(100, 200), (300, 400)] := by
    unfold SacksSound
    rw [if_pos (by decide)]
    decide
  have hmap : [((100 : UInt32), (200 : UInt32)), (300, 400)].mapM (AckReference.edges ⟨0, 0, 0⟩) =
      .ok [(100, 200), (300, 400)] := by
    decide
  exact (parseTCPOptions_decodes_iff harea rfl rfl hmap {}).mpr hsound

/-- Three blocks and a timestamp. -/
def threeBlocks : List TcpOption :=
  [.sack [(100, 200), (300, 400), (500, 600)], .timestamp 7 9]

theorem parseTCPOptions_misreads_three_blocks :
    (parseTCPOptions (some ⟨0, 0, 0⟩) (memory (encodeAll threeBlocks)) 36 {}).map
        (fun out => out.toOption.map (·.tcpSacks)) =
      some (some [(100, 200), (400, 500), (0x080A0000, 0x00070000)]) ∧
    ¬∀ (conn : AckReference) opts optionLength area, OptionArea opts optionLength area →
      ∀ val echo, timestamps area = [(val, echo)] → ∀ o blocks,
        sackOptions 0 area = [(o, blocks)] → ∀ sacks, blocks.mapM conn.edges = .ok sacks →
          ∀ data, parseTCPOptions (some conn) opts optionLength data = some (.ok
            { data with
              tstampTcp := val.toNat
              tstampTcpEcho := echo.toNat
              sacks := true
              tcpSacks := data.tcpSacks ++ sacks }) := by
  have hread : (parseTCPOptions (some ⟨0, 0, 0⟩) (memory (encodeAll threeBlocks)) 36 {}).map
      (fun out => out.toOption.map (·.tcpSacks)) =
        some (some [(100, 200), (400, 500), (0x080A0000, 0x00070000)]) := by
    decide
  refine ⟨hread, fun h => ?_⟩
  have harea : OptionArea (memory (encodeAll threeBlocks)) 36 threeBlocks :=
    ⟨by decide, by decide, by decide, by decide, by decide⟩
  have hmap : [((100 : UInt32), (200 : UInt32)), (300, 400), (500, 600)].mapM
      (AckReference.edges ⟨0, 0, 0⟩) = .ok [(100, 200), (300, 400), (500, 600)] := by
    decide
  have hparse := h ⟨0, 0, 0⟩ _ 36 threeBlocks harea 7 9 rfl 0 _ rfl _ hmap {}
  rw [hparse] at hread
  exact absurd hread (by decide)

end Dump

end AnalyseTCP
