import AnalyseTCP.Connection

/-!
# `Dump::parseTCPOptions`

The walk over the options of a TCP header.  `opts` is the memory from the first option byte on: the
code reads whatever lies behind the options as well.  The size byte of an option decides where the
next one starts, and nothing checks it.
-/

namespace AnalyseTCP

namespace Dump

/-! ## Reading -/

/-- `ntohl` of the four bytes at `o`. -/
def word32 (opts : ℕ → UInt8) (o : ℕ) : ℕ :=
  (opts o).toNat * 2 ^ 24 + (opts (o + 1)).toNat * 2 ^ 16 + (opts (o + 2)).toNat * 2 ^ 8 +
    (opts (o + 3)).toNat

/-- What `getRelativeSequenceNumber` reads of a connection for `RELSEQ_SEND_ACK`. -/
structure AckReference where
  firstSeq : ℕ
  lastLargestAckSeq : ℕ
  lastLargestAckSeqAbsolute : ℕ

def AckReference.getRelativeSequenceNumber (conn : AckReference) (seq : ℕ) : Except Abort ℕ :=
  AnalyseTCP.getRelativeSequenceNumber seq conn.firstSeq conn.lastLargestAckSeq
    conn.lastLargestAckSeqAbsolute

section Parse

-- `none` stands for `RELSEQ_NONE`, `some conn` for `RELSEQ_SEND_ACK` on that connection.
variable (tmpConn : Option AckReference) (conn : AckReference) (opts : ℕ → UInt8)
  (optionLength : ℕ)

/-- Where the code looks for block `i` of the SACK option at `offset`. -/
def blockOffset (offset blocks i : ℕ) : ℕ := offset + 2 + 4 * blocks * i

/-- The pair is built as `pair<uint64_t, uint32_t>`: the right edge loses its upper half. -/
def readBlock (o : ℕ) : Except Abort (ℕ × ℕ) := do
  let leftin := word32 opts o
  let rightin := word32 opts (o + 4)
  let left ← conn.getRelativeSequenceNumber leftin
  let right ← conn.getRelativeSequenceNumber rightin
  return (left, right % 2 ^ 32)

def readSacks (offset blocks : ℕ) : Except Abort (List (ℕ × ℕ)) :=
  (List.range blocks).mapM fun i => readBlock conn opts (blockOffset offset blocks i)

/-- `(_opt->size - 2) / 8`, which is 0 for the sizes 0 and 1 too. -/
def sackBlocks (offset : ℕ) : ℕ := ((opts (offset + 1)).toNat - 2) / 8

/-- The option at `offset`, which is neither the end of the list nor a NOP. -/
def parseOption (data : DataSeg) (offset : ℕ) : Except Abort DataSeg := do
  let data :=
    -- the size byte of a timestamp option is not compared with 10
    if opts offset = 8 then
      { data with
        tstampTcp := word32 opts (offset + 2)
        tstampTcpEcho := word32 opts (offset + 6) }
    else data
  match tmpConn with
  | some conn =>
      if opts offset = 5 then
        let sacks ← readSacks conn opts offset (sackBlocks opts offset)
        return { data with sacks := true, tcpSacks := data.tcpSacks ++ sacks }
      else return data
  | none => return data

/-- The loop with `fuel` iterations left.  Its first test reads the first byte every time. -/
def parseLoop : ℕ → DataSeg → ℕ → Option (Except Abort DataSeg)
  | fuel, data, offset =>
      if opts 0 ≠ 0 ∧ offset < optionLength then
        match fuel with
        | 0 => none
        | fuel + 1 =>
            -- end of the list; a NOP has no size byte; the rest is skipped by its size, even 0
            if opts offset = 0 then some (.ok data)
            else if opts offset = 1 then parseLoop fuel data (add32 offset 1)
            else
              match parseOption tmpConn opts data offset with
              | .error e => some (.error e)
              | .ok data => parseLoop fuel data (add32 offset (opts (offset + 1)).toNat)
      else some (.ok data)

/-- What is left of `data` after at most `option_length` iterations; `none` if they do not do. -/
def parseTCPOptions (data : DataSeg) : Option (Except Abort DataSeg) :=
  parseLoop tmpConn opts optionLength optionLength data 0

/-! ## The offsets -/

/-- Where the iteration after the one at `offset` starts, if there is one. -/
def nextOffset (offset : ℕ) : Option ℕ :=
  if opts 0 ≠ 0 ∧ offset < optionLength then
    if opts offset = 0 then none
    else if opts offset = 1 then some (add32 offset 1)
    else
      match parseOption tmpConn opts {} offset with
      | .error _ => none
      | .ok _ => some (add32 offset (opts (offset + 1)).toNat)
  else none

/-- The offset at the test of the loop after `k` iterations from `o` on. -/
def walk (o : ℕ) : ℕ → Option ℕ
  | 0 => some o
  | k + 1 => (walk o k).bind (nextOffset tmpConn opts optionLength)

/-- The loop goes into an iteration at `o`. -/
def Enters (o : ℕ) : Prop := opts 0 ≠ 0 ∧ o < optionLength

instance (o : ℕ) : Decidable (Enters opts optionLength o) := inferInstanceAs (Decidable (_ ∧ _))

/-- Some iteration starts at `o`. -/
def Reaches (o : ℕ) : Prop := (∃ k, walk tmpConn opts optionLength 0 k = some o) ∧
  Enters opts optionLength o

/-! ## The bytes read -/

def bytesAt (o n : ℕ) : List ℕ := (List.range n).map fun i => o + i

/-- The blocks of the SACK option at `offset` whose edges are read: all up to the first one for
which `getRelativeSequenceNumber` fails. -/
def blocksRead (offset blocks : ℕ) : List ℕ :=
  (List.range blocks).filter fun i =>
    (List.range i).all fun j => (readBlock conn opts (blockOffset offset blocks j)).toBool

/-- The offsets of the bytes that the iteration at `offset` reads. -/
def optionReads (offset : ℕ) : List ℕ :=
  if opts offset = 0 ∨ opts offset = 1 then [offset]
  else
    [offset, offset + 1] ++ (if opts offset = 8 then bytesAt (offset + 2) 8 else []) ++
      match tmpConn with
      | some conn =>
          if opts offset = 5 then
            (blocksRead conn opts offset (sackBlocks opts offset)).flatMap fun i =>
              bytesAt (blockOffset offset (sackBlocks opts offset) i) 8
          else []
      | none => []

/-- The offsets of the bytes that the first `fuel` iterations read, with the tests. -/
def parseReads : ℕ → ℕ → List ℕ
  | fuel, offset =>
      0 ::
        if opts 0 ≠ 0 ∧ offset < optionLength then
          match fuel with
          | 0 => []
          | fuel + 1 =>
              optionReads tmpConn opts offset ++
                match nextOffset tmpConn opts optionLength offset with
                | none => []
                | some offset => parseReads fuel offset
        else []

end Parse

/-! ## The callers -/

inductive Caller
  | processSent | processAcks | processRecvd
deriving DecidableEq

/-- `TH_OFF(tcp) * 4 - 20`. -/
def tcpOptionLen (thOff : ℕ) : ℕ := sub32 (thOff * 4) 20

/-- What `parseTCPOptions` reads within `fuel` iterations for a caller; `processSent` asserts
`sd.tcpOptionLen <= 40` first. -/
def callerReads (caller : Caller) (conn : AckReference) (opts : ℕ → UInt8) (thOff fuel : ℕ) :
    List ℕ :=
  if caller = .processSent ∧ 40 < tcpOptionLen thOff then []
  else
    parseReads (if caller = .processAcks then some conn else none) opts (tcpOptionLen thOff) fuel 0

end Dump

end AnalyseTCP
