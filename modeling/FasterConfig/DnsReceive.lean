import FasterConfig.DnsRequest
import FasterConfig.DotStr

/-!
# The client's receive loop

A datagram goes to the front of the receive array; what an earlier one left
behind it stays. Only the header is compared with what was asked for: the
number of octets received plays no part in the parsing that follows.
-/

set_option autoImplicit false

namespace FasterConfig.DnsReceive
open FasterConfig.Octets FasterConfig.Memory FasterConfig.Strings FasterConfig.DnsQuery
open FasterConfig.DnsRequest FasterConfig.Traced FasterConfig.DotStr

def dnsTtlSize : ℕ := 4
def dnsDatalenSize : ℕ := 2
def dnsTypeA : UInt16 := 0x0001
def dnsTypeCname : UInt16 := 0x0005
def recvbufSize : ℕ := 1024

/-- `szDotName` has its first octet at place 1, and place 0 is the octet in front of it. -/
def szDotName : ℕ := 1

def dotNameSize : ℕ := 128

/-- The lists of the caller, `none` where it gave NULL. An address is kept as the octets
it has in memory. -/
structure Lists where
  pveculIPList : Option (List (List UInt8))
  pvecstrCNameList : Option (List Text)
  deriving DecidableEq, Repr

def Lists.clear (lists : Lists) : Lists :=
  ⟨lists.pveculIPList.map fun _ => [], lists.pvecstrCNameList.map fun _ => []⟩

def Lists.pushIP (lists : Lists) (ulIP : List UInt8) : Lists :=
  { lists with pveculIPList := lists.pveculIPList.map fun l => l ++ [ulIP] }

def Lists.pushCName (lists : Lists) (name : Text) : Lists :=
  { lists with pvecstrCNameList := lists.pvecstrCNameList.map fun l => l ++ [name] }

inductive Received where
  | ignored
  | refused
  | accepted (lists : Lists) (pDNSData : ℕ)
  deriving DecidableEq, Repr

section
variable (packet : Mem) (sizeofULONG fuel : ℕ)

def questionLoop : ℕ → ℕ → Mem → Run Access (Option (ℕ × Mem))
  | 0, pDNSData, dot => return some (pDNSData, dot)
  | q+1, pDNSData, dot =>
    (decodeDotStr packet none fuel pDNSData szDotName dotNameSize dot).andThen fun r =>
      questionLoop q (pDNSData+(r.encodedStrLen+dnsTypeSize+dnsClassSize)) r.dot

def pushAnswer (usAnswerType : UInt16) (pDNSData : ℕ) (lists : Lists) (dot : Mem) :
    Run Access (Option (Lists × Mem)) :=
  if usAnswerType = dnsTypeA ∧ lists.pveculIPList.isSome then do
    let ulIP ← readOctets packet pDNSData sizeofULONG
    return some (lists.pushIP ulIP, dot)
  else if usAnswerType = dnsTypeCname ∧ lists.pvecstrCNameList.isSome then
    (decodeDotStr packet (some 0) fuel pDNSData szDotName dotNameSize dot).andThen fun r =>
      return some (lists.pushCName (cString (slice r.dot szDotName dotNameSize)), r.dot)
  else return some (lists, dot)

/-- Class and time to live are read and not used. -/
def answerLoop : ℕ → ℕ → Lists → Mem → Run Access (Option (Lists × ℕ))
  | 0, pDNSData, lists, _ => return some (lists, pDNSData)
  | a+1, pDNSData, lists, dot =>
    (decodeDotStr packet (some 0) fuel pDNSData szDotName dotNameSize dot).andThen fun r => do
      let pDNSData := pDNSData+r.encodedStrLen
      let usAnswerType ← read16 packet pDNSData
      let _usAnswerClass ← read16 packet (pDNSData+dnsTypeSize)
      let _usAnswerTTL ← readOctets packet (pDNSData+dnsTypeSize+dnsClassSize) sizeofULONG
      let usAnswerDataLen ← read16 packet (pDNSData+dnsTypeSize+dnsClassSize+dnsTtlSize)
      let pDNSData := pDNSData+(dnsTypeSize+dnsClassSize+dnsTtlSize+dnsDatalenSize)
      (pushAnswer packet sizeofULONG fuel usAnswerType pDNSData lists r.dot).andThen fun l =>
        answerLoop a (pDNSData+usAnswerDataLen.toNat) l.1 l.2

theorem answerLoop_some (a pos : ℕ) (lists : Lists) (dot : Mem) (x : Lists × ℕ) :
    (answerLoop packet sizeofULONG fuel (a+1) pos lists dot).result = some (some x) ↔
      ∃ r, (decodeDotStr packet (some 0) fuel pos szDotName dotNameSize dot).result =
          some (some r) ∧
        ∃ l, (pushAnswer packet sizeofULONG fuel (get16At packet (pos+r.encodedStrLen))
            (pos+r.encodedStrLen+10) lists r.dot).result = some (some l) ∧
          (answerLoop packet sizeofULONG fuel a (pos+r.encodedStrLen+10+
            (get16At packet (pos+r.encodedStrLen+8)).toNat) l.1 l.2).result = some (some x) := by
  rw [answerLoop, Run.result_andThen_some]
  simp only [Run.result_bind, result_read16, result_readOctets, Option.bind_some,
    Run.result_andThen_some, dnsTypeSize, dnsClassSize, dnsTtlSize, dnsDatalenSize, Nat.add_assoc,
    Nat.reduceAdd]

/-- The body of the loop for one datagram. Each operand of `&&` is read only if the ones
before it hold; the comparison of the question count with 0 always does. The ID is not converted,
so `usCurrentProcID` stands for its two octets in memory, in their order. -/
def parseResponse (usCurrentProcID : UInt16) (lists : Lists) (dot : Mem) : Run Access Received := do
  let usTransID ← read16 packet 0
  if usTransID = usCurrentProcID then
    let usFlags ← read16 packet 2
    if usFlags &&& 0xfb7f = 0x8100 then
      let usQuestionCount ← read16 packet 4
      let usAnswerCount ← read16 packet 6
      if 0 < usAnswerCount.toNat then
        let r ← (questionLoop packet fuel usQuestionCount.toNat hdrOffset dot).andThen fun q =>
          answerLoop packet sizeofULONG fuel usAnswerCount.toNat q.1 lists q.2
        return r.elim .refused fun a => .accepted a.1 a.2
      else return .ignored
    else return .ignored
  else return .ignored

end

/-- What the parser sees after a datagram has come in; `beyond` is the memory behind the array. -/
def received (recvbuf : CArray recvbufSize) (d : List UInt8) (beyond : Mem) : Mem :=
  load (recvbuf.receive d).octets beyond

def recvLoop (sizeofULONG fuel : ℕ) (usCurrentProcID : UInt16) (lists : Lists) (dot beyond : Mem) :
    CArray recvbufSize → List (List UInt8) → Run Access Received
  | _, [] => Run.starved -- recvfrom waits
  | recvbuf, d::ds => do
    match ← parseResponse (received recvbuf d beyond) sizeofULONG fuel usCurrentProcID lists dot with
    | .ignored =>
      recvLoop sizeofULONG fuel usCurrentProcID lists dot beyond (recvbuf.receive d) ds
    | r => return r

/-- Called with the datagrams that will come in. The arrays, which the source fills with
zeros, may hold anything here, as they do once a datagram has been ignored. -/
def recvDNSResponse (sizeofULONG fuel : ℕ) (usCurrentProcID : UInt16) (lists : Lists)
    (dot beyond : Mem) (recvbuf : CArray recvbufSize) (ds : List (List UInt8)) :
    Run Access Received :=
  recvLoop sizeofULONG fuel usCurrentProcID lists.clear dot beyond recvbuf ds

theorem holds_received (recvbuf : CArray recvbufSize) (d : List UInt8) (beyond : Mem) :
    Holds (received recvbuf d beyond) 0 (d.take recvbufSize) := by
  rw [received, holds_load, List.drop_zero]
  · exact List.prefix_append _ _
  · rw [(recvbuf.receive d).size, Nat.zero_add]
    exact List.length_take_le _ _

end FasterConfig.DnsReceive
