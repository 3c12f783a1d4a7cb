import Mathlib.Tactic.Linarith
import Mathlib.Tactic.Ring

/-!
# Shared types

Relative sequence numbers (`seq64_t`) and absolute ones (`seq32_t`) are naturals.  Wherever the
program's arithmetic can leave the machine range, the operations below reduce explicitly; plain
`+`, `<` and `-` on naturals are used only where no operand can wrap.
-/

namespace AnalyseTCP

/-! ## Machine arithmetic -/

def add32 (a b : ℕ) : ℕ := (a + b) % 2 ^ 32

def sub32 (a b : ℕ) : ℕ := (a + 2 ^ 32 - b % 2 ^ 32) % 2 ^ 32

def add64 (a b : ℕ) : ℕ := (a + b) % 2 ^ 64

def sub64 (a b : ℕ) : ℕ := (a + 2 ^ 64 - b % 2 ^ 64) % 2 ^ 64

/-- `(signed int) x` for a 32-bit `x`. -/
def signed32 (x : ℕ) : ℤ := if x < 2 ^ 31 then x else (x : ℤ) - 2 ^ 32

/-- A subtraction that stays in the machine range is the subtraction of naturals. -/
theorem sub64_eq_sub {a b : ℕ} (hle : b ≤ a) (hlt : a - b < 2 ^ 64) : sub64 a b = a - b := by
  unfold sub64
  omega

/-! ## Times -/

structure Timeval where
  tvSec : ℤ
  tvUsec : ℤ
deriving DecidableEq, Repr

/-- `timercmp(a, b, <)`. -/
def Timeval.before (a b : Timeval) : Bool :=
  if a.tvSec = b.tvSec then decide (a.tvUsec < b.tvUsec) else decide (a.tvSec < b.tvSec)

def Timeval.getUsecs (tv : Timeval) : ℤ := tv.tvSec * 1000000 + tv.tvUsec

def Timeval.zero : Timeval := ⟨0, 0⟩

/-- `timersub`. -/
def Timeval.sub (a b : Timeval) : Timeval :=
  if a.tvUsec - b.tvUsec < 0 then ⟨a.tvSec - b.tvSec - 1, a.tvUsec - b.tvUsec + 1000000⟩
  else ⟨a.tvSec - b.tvSec, a.tvUsec - b.tvUsec⟩

theorem Timeval.getUsecs_sub (a b : Timeval) : (a.sub b).getUsecs = a.getUsecs - b.getUsecs := by
  unfold sub getUsecs
  split <;> ring

/-! ## Packets -/

/-- `sent_type`. -/
inductive SentType
  | none | pkt | rtr | pureAck | rst
deriving DecidableEq, Repr

/-- `insert_type`. -/
inductive InsertType
  | sent | recv | sojourn
deriving DecidableEq, Repr

def thFin : UInt8 := 0x01
def thSyn : UInt8 := 0x02
def thRst : UInt8 := 0x04

structure DataSeg where
  seq : ℕ := 0
  endSeq : ℕ := 0
  rdbEndSeq : ℕ := 0
  seqAbsolute : ℕ := 0
  ack : ℕ := 0
  window : ℕ := 0
  payloadSize : ℕ := 0
  retrans : Bool := false
  isRdb : Bool := false
  sacks : Bool := false
  inSequence : Bool := false
  tstampPcap : Timeval := Timeval.zero
  tstampTcp : ℕ := 0
  tstampTcpEcho : ℕ := 0
  tcpSacks : List (ℕ × ℕ) := []
  flags : UInt8 := 0
deriving DecidableEq, Repr

namespace DataSeg

def fin (d : DataSeg) : Bool := d.flags &&& thFin != 0

def syn (d : DataSeg) : Bool := d.flags &&& thSyn != 0

def rst (d : DataSeg) : Bool := d.flags &&& thRst != 0

/-- Neither SYN nor FIN nor RST: without payload, such a packet is a pure ACK. -/
def noFlags (d : DataSeg) : Bool := !d.syn && !d.fin && !d.rst

end DataSeg

structure SendData where
  totalSize : ℕ := 0
  data : DataSeg
deriving DecidableEq, Repr

/-! ## Abnormal ends -/

/-- Why the program stops instead of returning: a failed `assert` (active in every build but
Release), an uncaught `std::logic_error`, or an access the language leaves undefined. -/
inductive Abort
  /-- `(endSeq - startSeq) < std::numeric_limits<uint16_t>::max()` -/
  | byteCount
  /-- `lowIt == highIt` -/
  | emptyWindow
  /-- `!(start_matches && end_matches) && "BOTH"` -/
  | bothMatch
  /-- `"SYN" && 0` -/
  | synWithPayload
  /-- `0 && "The ack on the syn-ack??\n"` -/
  | ackOnSynAck
  /-- `brIt->second->received_tstamp_tcp && "TEST\n"` -/
  | receivedTstamp
  /-- `assert(0)` for a sojourn entry at the start of a range -/
  | sojournStart
  /-- `assert(0)` for a range acknowledged before it was sent -/
  | negativeLatency
  /-- `0 && "Incorrect sequence number calculation!\n"` -/
  | sequenceNumber
  /-- `Recurse level too high: %d in insertByteRange: start seq: %llu, end seq: %llu, ...` -/
  | recurseLevel (startSeq endSeq : ℕ) (itype : InsertType)
  /-- an iterator or vector access outside the container -/
  | outOfRange
  /-- the model's recursion bound, which no call reaches -/
  | outOfFuel
deriving DecidableEq, Repr

end AnalyseTCP
