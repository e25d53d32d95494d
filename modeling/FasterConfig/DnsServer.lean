import FasterConfig.Octets
import FasterConfig.Resolv

/-!
# The spoofing name server

One pass of the server receives a datagram into the front of its buffer,
expands the question name, reads type and class behind it and answers every
standard query of class IN with records made up from the spoof address. The
buffer and the name array outlive the pass; what a pass does not overwrite
the next one finds.
-/

set_option autoImplicit false

namespace FasterConfig.DnsServer
open FasterConfig.Octets FasterConfig.DomainName FasterConfig.Resolv

def bufferSize : ℕ := 1024

abbrev Buffer := CArray bufferSize

def nsCIn : UInt16 := 1
def nsTA : UInt16 := 1
def nsTPtr : UInt16 := 12
def nsTMx : UInt16 := 15
def nsTTxt : UInt16 := 16
def nsTAaaa : UInt16 := 28
def nsTSrv : UInt16 := 33
def nsTWins : UInt16 := 0xff01
def nsOQuery : ℕ := 0

/-- `s_addr` in network order, as `inet_aton` reads it from `spoof_addr`. -/
structure InAddr where
  a : UInt8
  b : UInt8
  c : UInt8
  d : UInt8
  deriving DecidableEq, Repr

def InAddr.octets (i : InAddr) : List UInt8 := [i.a, i.b, i.c, i.d]

/-! ## Record builders -/

structure Answer where
  data : List UInt8
  nAnsw : UInt16
  nAuth : UInt16
  nAddi : UInt16
  deriving DecidableEq, Repr

/-- Zeroed memory filled by a sequence of copies at fixed offsets. -/
def block (dnsLen : ℕ) (chunks : List (ℕ × List UInt8)) : List UInt8 :=
  chunks.foldl (fun data c => memcpy data c.1 c.2) (calloc dnsLen)

def dnsTtl : List UInt8 := [0x00, 0x00, 0x0e, 0x10] -- htonl(3600)

def prepareDnsReplyA (spoofAddr : InAddr) : Answer where
  data := block (12+4)
    [(0, [0xc0, 0x0c]), (2, [0x00, 0x01]), (4, [0x00, 0x01]), (6, dnsTtl), (10, [0x00, 0x04]),
     (12, spoofAddr.octets)]
  nAnsw := 1
  nAuth := 0
  nAddi := 0

def mailName : List UInt8 := [0x04, 0x6d, 0x61, 0x69, 0x6c, 0xc0, 0x0c] -- "\x04mail\xc0\x0c"

def prepareDnsReplyMx (spoofAddr : InAddr) : Answer where
  data := block (12+2+7+17+4)
    [(0, [0xc0, 0x0c]), (2, [0x00, 0x0f]), (4, [0x00, 0x01]), (6, dnsTtl), (10, [0x00, 0x09]),
     (12, [0x00, 0x0a]), (14, mailName),
     (21, mailName), (21+7, [0x00, 0x01]), (21+9, [0x00, 0x01]), (21+11, dnsTtl),
     (21+15, [0x00, 0x04]), (21+17, spoofAddr.octets)]
  nAnsw := 1
  nAuth := 0
  nAddi := 1

-- the builder that leaves all three counters alone
def prepareDnsReplyWins (spoofAddr : InAddr) : Answer where
  data := block (12+4)
    [(0, [0xc0, 0x0c]), (2, [0xff, 0x01]), (4, [0x00, 0x01]), (6, dnsTtl), (10, [0x00, 0x04]),
     (12, spoofAddr.octets)]
  nAnsw := 0
  nAuth := 0
  nAddi := 0

def srvLabel : List UInt8 := [0x03, 0x73, 0x72, 0x76] -- "\x03srv"

def prepareDnsReplySrv (spoofAddr : InAddr) (dnOffset : ℕ) : Answer where
  data := block 44
    [(0, [0xc0, 0x0c]), (2, [0x00, 0x21]), (4, [0x00, 0x01]), (6, dnsTtl), (10, [0x00, 0x0c]),
     (12, [0x00, 0x00]), (14, [0x00, 0x00]), (16, [0x08, 0x00]),
     (18, srvLabel), (22, [0xc0, UInt8.ofNat (12+dnOffset)]),
     (24, srvLabel), (24+4, [0xc0, UInt8.ofNat (12+dnOffset)]), (24+6, [0x00, 0x01]),
     (24+8, [0x00, 0x01]), (24+10, dnsTtl), (24+14, [0x00, 0x04]), (24+16, spoofAddr.octets)]
  nAnsw := 1
  nAuth := 0
  nAddi := 1

def prepareDnsReplyDefault : Answer where
  data := block 46
    [(0, [0xc0, 0x0c]), (2, [0x00, 0x06]), (4, [0x00, 0x01]), (6, dnsTtl), (10, [0x00, 0x22]),
     (12, [0x03, 0x6e, 0x73, 0x31]), (16, [0xc0, 0x0c]),
     (18, [0x05, 0x61, 0x62, 0x75, 0x73, 0x65]), (24, [0xc0, 0x0c]),
     (26, [0x51, 0x79, 0x57, 0xf5]), (30, [0x00, 0x00, 0x0e, 0x10]), (34, [0x00, 0x00, 0x02, 0x58]),
     (38, [0x00, 0x09, 0x3a, 0x80]), (42, [0x00, 0x00, 0x00, 0x3c])]
  nAnsw := 0
  nAuth := 1
  nAddi := 0

def prepareReply (spoofAddr : InAddr) (tType : UInt16) : Answer :=
  if tType = nsTTxt ∨ tType = nsTPtr ∨ tType = nsTAaaa ∨ tType = nsTA then
    prepareDnsReplyA spoofAddr
  else if tType = nsTMx then prepareDnsReplyMx spoofAddr
  else if tType = nsTWins then prepareDnsReplyWins spoofAddr
  else if tType = nsTSrv then prepareDnsReplySrv spoofAddr 0
  else prepareDnsReplyDefault

/-! ## Encoders -/

def encodeSpoofDnsHeader (id answ auth addi : UInt16) : List UInt8 :=
  put16 id ++ put16 0x8400 ++ put16 0x01 ++ put16 answ ++ put16 auth ++ put16 addi

/-- The loop of `encode_domain` with the label since `start` read so far: at a dot
the label goes out behind its length octet, at the end so does the last one. -/
def encodeFrom (label : List UInt8) : List UInt8 → List UInt8
  | [] => UInt8.ofNat label.length::label ++ [0]
  | c::rest => if c = 0x2e then UInt8.ofNat label.length::label ++ encodeFrom [] rest
      else encodeFrom (label ++ [c]) rest

def encodeDomain (name : List UInt8) : List UInt8 := encodeFrom [] name

def encodeQueryTypyAndClass (tType tClass : UInt16) : List UInt8 := put16 tType ++ put16 tClass

def assemble (transId : UInt16) (name : List UInt8) (tType tClass : UInt16) (r : Answer) :
    List UInt8 :=
  encodeSpoofDnsHeader transId r.nAnsw r.nAuth r.nAddi ++
    (encodeDomain name ++ (encodeQueryTypyAndClass tType tClass ++ r.data))

/-! ## The server loop -/

/-- What outlives a pass. `name` is the text in the array up to its NUL; `tClass` keeps
the sixteen bits of the signed field. -/
structure State where
  buffer : Buffer
  name : List UInt8
  tType : UInt16
  tClass : UInt16

def State.start : State := ⟨CArray.zero bufferSize, [], 0, 0⟩

def nsGet16 (b : Buffer) (q : ℕ) : UInt16 := get16 (b.get q) (b.get (q+1))

def isQuery (b : Buffer) : Bool :=
  (b.get 2).toNat/128 = 0 ∧ (b.get 2).toNat/8%16 = nsOQuery ∧ nsGet16 b 4 = 1 ∧ nsGet16 b 6 = 0

/-- Offset of type and class; a refused name has length -1. -/
def typeOffset : Option (ℕ × List UInt8) → ℕ
  | some (nameLen, _) => 12+nameLen
  | none => 12-1

/-- The name array after `dn_expand`, which leaves it alone when it refuses. -/
def nameAfter (old : List UInt8) : Option (ℕ × List UInt8) → List UInt8
  | some (_, t) => t
  | none => old

/-- One pass of `while (true)` and the datagram it sends, if it sends one. The reply is
kept in full also where it runs past the buffer; what stands behind the buffer is taken to
come through such a pass as it was, which the process does not promise. -/
def iteration (spoofAddr : InAddr) (s : State) (datagram : List UInt8) :
    State × Option (List UInt8) :=
  let nbytes := (datagram.take bufferSize).length
  let buffer := s.buffer.receive datagram
  let transId := nsGet16 buffer 0
  let expanded := dnExpand (buffer.octets.take nbytes) 12 nsMaxdname
  let name := nameAfter s.name expanded
  let q := typeOffset expanded
  let tType := nsGet16 buffer q
  let tClass := nsGet16 buffer (q+2)
  if tClass ≠ nsCIn then (⟨buffer, name, tType, tClass⟩, none)
  else if isQuery buffer then
    let out := assemble transId name tType tClass (prepareReply spoofAddr tType)
    (⟨(CArray.zero bufferSize).receive out, name, tType, tClass⟩, some out)
  else (⟨buffer, name, tType, tClass⟩, none)

def serve (spoofAddr : InAddr) (s : State) (datagram : List UInt8) : State :=
  (iteration spoofAddr s datagram).1

def reply (spoofAddr : InAddr) (s : State) (datagram : List UInt8) : Option (List UInt8) :=
  (iteration spoofAddr s datagram).2

def serveAll (spoofAddr : InAddr) (s : State) (history : List (List UInt8)) : State :=
  history.foldl (serve spoofAddr) s

end FasterConfig.DnsServer
