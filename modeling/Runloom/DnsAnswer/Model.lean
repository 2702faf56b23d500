import Mathlib.Data.List.Basic

/-!
# The parser of DNS answers

Model of `_skip_dns_name` and `_parse_dns_answer` over the bytes of one UDP packet.  Whatever a statement of the source
can raise is raised here too: indexing outside the packet, unpacking a slice of the wrong length, and the texts of
addresses of the wrong length.
-/

namespace Runloom.DnsAnswer

inductive Exn where
  | osError (message : String)
  | indexError
  | structError
  | valueError
deriving DecidableEq

/-- The texts that the platform gives to packed addresses. -/
structure Inet where
  ntoa : List UInt8 → String
  ntop : List UInt8 → String

/-- `socket.inet_ntoa`. -/
def Inet.inetNtoa (inet : Inet) (packed : List UInt8) : Except Exn String :=
  if packed.length = 4 then .ok (inet.ntoa packed) else .error (.osError "packed IP wrong length")

/-- `socket.inet_ntop` for `AF_INET6`. -/
def Inet.inetNtop (inet : Inet) (packed : List UInt8) : Except Exn String :=
  if packed.length = 16 then .ok (inet.ntop packed) else .error .valueError

def qtypeA : ℕ := 1

def qtypeAAAA : ℕ := 28

/-- `data[off:off+n]`. -/
def slice (data : List UInt8) (off n : ℕ) : List UInt8 := (data.drop off).take n

/-- `data[off]`. -/
def index (data : List UInt8) (off : ℕ) : Except Exn UInt8 :=
  match data[off]? with
  | some b => .ok b
  | none => .error .indexError

def be16 (a b : UInt8) : ℕ := a.toNat * 256 + b.toNat

/-- The fields of the header that the parser reads. -/
structure Header where
  txn : ℕ
  flags : ℕ
  qd : ℕ
  an : ℕ

/-- `struct.unpack("!HHHHHH", …)`, without the last two numbers. -/
def unpackHeader : List UInt8 → Except Exn Header
  | [t1, t0, f1, f0, q1, q0, a1, a0, _, _, _, _] =>
    .ok { txn := be16 t1 t0, flags := be16 f1 f0, qd := be16 q1 q0, an := be16 a1 a0 }
  | _ => .error .structError

/-- `struct.unpack("!HHIH", …)`: the type and the length of the data. -/
def unpackRecord : List UInt8 → Except Exn (ℕ × ℕ)
  | [t1, t0, _, _, _, _, _, _, l1, l0] => .ok (be16 t1 t0, be16 l1 l0)
  | _ => .error .structError

/-- `_skip_dns_name`. Each round of the loop moves on. -/
def skipDnsName (data : List UInt8) (off : ℕ) : Except Exn ℕ :=
  if _h : data.length ≤ off then .error (.osError "DNS name overruns packet")
  else
    match index data off with
    | .error e => .error e
    | .ok ln =>
      if ln = 0 then .ok (off + 1)
      else if ln &&& 0xC0 = 0xC0 then .ok (off + 2)
      else skipDnsName data (off + 1 + ln.toNat)
termination_by data.length - off

def skipQuestions (data : List UInt8) : ℕ → ℕ → Except Exn ℕ
  | 0, off => .ok off
  | n + 1, off => do
    let off ← skipDnsName data off
    skipQuestions data n (off + 4)

def readAddress (inet : Inet) (rtype : ℕ) (rdata : List UInt8) : Except Exn (List String) :=
  if rtype = qtypeA ∧ rdata.length = 4 then do
    let addr ← inet.inetNtoa rdata
    return [addr]
  else if rtype = qtypeAAAA ∧ rdata.length = 16 then do
    let addr ← inet.inetNtop rdata
    return [addr]
  else return []

/-- The loop over the records; it is left when the head of a record does not fit. -/
def readRecords (inet : Inet) (data : List UInt8) : ℕ → ℕ → List String → Except Exn (List String)
  | 0, _, addrs => .ok addrs
  | n + 1, off, addrs => do
    let off ← skipDnsName data off
    if data.length < off + 10 then return addrs
    let (rtype, rdlen) ← unpackRecord (slice data off 10)
    let found ← readAddress inet rtype (slice data (off + 10) rdlen)
    readRecords inet data n (off + 10 + rdlen) (addrs ++ found)

/-- `_parse_dns_answer`. -/
def parseDnsAnswer (inet : Inet) (data : List UInt8) (expectedTxn : ℕ) : Except Exn (List String) := do
  if data.length < 12 then throw (.osError "DNS response too short")
  let hdr ← unpackHeader (slice data 0 12)
  if hdr.txn ≠ expectedTxn then throw (.osError "DNS txn mismatch")
  if hdr.flags &&& 0x0200 ≠ 0 then throw (.osError "DNS response truncated (TC set)")
  let rcode := hdr.flags &&& 0xF
  if rcode = 3 then return []
  if rcode ≠ 0 then throw (.osError ("DNS server rcode=" ++ toString rcode))
  let off ← skipQuestions data hdr.qd 12
  readRecords inet data hdr.an off []

end Runloom.DnsAnswer
