import FasterConfig.DnsReceive
import FasterConfig.DnsWellFormed
import Mathlib.Data.List.TakeWhile

/-!
# Client and server

The server answers the client's query for every host name, but the flags of
its reply are 0x8400: the bit for recursion desired is not copied, and the
client only takes replies in which it is set.
-/

set_option autoImplicit false

namespace FasterConfig.DnsAgree
open FasterConfig.Octets FasterConfig.DomainName FasterConfig.Memory FasterConfig.Strings
open FasterConfig.DnsServer FasterConfig.DnsReply FasterConfig.DnsEcho FasterConfig.DnsWellFormed
open FasterConfig.DnsQuery FasterConfig.DnsQuestions FasterConfig.DnsRequest FasterConfig.Traced
open FasterConfig.DotStr FasterConfig.DnsReceive

/-- The name of a host, of at most 127 characters with its dots. -/
structure Host where
  labels : List Label
  host : HostName labels
  valid : ∀ l ∈ labels, ValidLabel l
  short : (text labels).length ≤ 127

/-- What the two sides bring along: their memory, and the state the server is in. -/
structure Sides where
  usCurrentProcID : UInt16
  heap : Mem
  behind : ℕ
  recvbuf : CArray recvbufSize
  beyond : Mem
  dot : Mem
  spoofAddr : InAddr
  server : State

/-- What the client makes of a reply; an `unsigned long` has four octets. -/
def Sides.parse (x : Sides) (fuel : ℕ) (out : Text) : Run Access Received :=
  parseResponse (received x.recvbuf out x.beyond) 4 fuel x.usCurrentProcID ⟨some [], some []⟩ x.dot

/-- The query is sent and answered, and the client gets the address out of the answer. -/
def Agree (x : Sides) (szDomainName : Text) : Prop :=
  ∃ packet extent out fuel pDNSData,
    sendDNSRequest x.usCurrentProcID szDomainName x.heap x.behind = .sent packet extent ∧
      reply x.spoofAddr x.server packet = some out ∧
      (x.parse fuel out).result =
        some (.accepted ⟨some [x.spoofAddr.octets], some []⟩ pDNSData)

theorem strtok_text (ls : List Label) (h : PlainName ls) (hv : ∀ l ∈ ls, l ≠ []) :
    strtok 0x2e (text ls) = ls := by
  rw [text_plain ls h.2]
  exact strtok_joined ls fun l hl => ⟨hv l hl, dot_not_mem l (h.2 l hl)⟩

theorem counted_valid (ls : List Label) (hv : ∀ l ∈ ls, ValidLabel l) : counted ls = ls := by
  apply List.takeWhile_eq_self_iff.mpr
  intro l hl
  have hpos := (hv l hl).pos
  have hle := (hv l hl).le
  exact decide_eq_true (by omega)

namespace Host

theorem plain (h : Host) : PlainName h.labels := hostName_plain h.labels h.host

theorem length_text (h : Host) : (text h.labels).length+1 = (wireLabels h.labels).length := by
  have hw : ∀ l ∈ h.labels, labelWidth l = l.length := by
    intro l hl
    rw [← length_escapeLabel, escapeLabel_plain l (h.plain.2 l hl)]
  have hpos := List.length_pos_iff.mpr h.host.1
  rw [DomainName.length_text, length_wireLabels, List.map_congr_left hw]
  omega

theorem validName (h : Host) : ValidName h.labels where
  labels := h.valid
  total := by
    have := h.short
    have := h.length_text
    rw [length_wire]
    omega

theorem opcode_query : (0x01 : UInt8).toNat < 8 := by decide

def query (h : Host) (id : UInt16) : DnsReply.Query where
  id := id
  flags₀ := 0x01
  flags₁ := 0
  nscount := 0
  arcount := 0
  qname := h.labels
  qtype := nsTA
  rest := []
  standard := opcode_query
  valid := h.validName

theorem request_sent (h : Host) (id : UInt16) (heap : Mem) (behind : ℕ) :
    ∃ extent, sendDNSRequest id (text h.labels) heap behind = .sent (h.query id).datagram extent := by
  have hshort := h.short
  have hlen := h.length_text
  have hn : ∀ l ∈ h.labels, l ≠ [] := fun l hl => List.length_pos_iff.mp (h.valid l hl).pos
  have ht := strtok_text h.labels h.plain hn
  have h0 : ∀ l ∈ h.labels, (0 : UInt8) ∉ l := by
    intro l hl hm
    exact absurd (h.plain.2 l hl 0 hm) (by decide)
  obtain ⟨r, hr⟩ := encodeDotStr_labels (text h.labels)
    (slice heap 0 (ushort (text h.labels).length+2+behind)) (by omega) (by rw [ht]; exact h.host.1)
  rw [ht] at hr
  have hc := cString_wireLabels h.labels h0 r
  rw [counted_valid h.labels h.valid] at hc
  rw [sent_eq id _ _ _ _ hr (by rw [hc]; omega), hc]
  refine ⟨_, congrArg₂ _ ?_ rfl⟩
  simp only [DnsReply.Query.datagram, DnsReply.Query.header, DnsReply.Query.question, query,
    requestHeader, encodeHeader, wire, List.append_assoc, List.append_nil]
  rfl

end Host

theorem assembled_ignored (x : Sides) (fuel : ℕ) (name : Text) (tType tClass : UInt16) (r : Answer) :
    (x.parse fuel (assemble x.usCurrentProcID name tType tClass r)).result = some .ignored := by
  have hd := holds_received x.recvbuf (assemble x.usCurrentProcID name tType tClass r) x.beyond
  have hflags : put16 x.usCurrentProcID ++ put16 0x8400 <+:
      (assemble x.usCurrentProcID name tType tClass r).take recvbufSize := by
    rw [List.prefix_take_iff]
    simp only [assemble, encodeSpoofDnsHeader, List.append_assoc, List.prefix_append_right_inj]
    exact ⟨List.prefix_append _ _, by simp [recvbufSize]⟩
  have h := hd.part _ 0 0 _ _ hflags
  rw [Nat.zero_add, holds_append, length_put16] at h
  have hid := get16At_holds _ _ _ h.1
  have hfl := get16At_holds _ _ _ h.2
  simp only [Sides.parse, parseResponse, Run.result_bind, result_read16, Option.bind_some]
  rw [hid, if_pos rfl]
  simp only [Run.result_bind, result_read16, Option.bind_some, Nat.zero_add] at hfl ⊢
  rw [hfl, if_neg (by decide)]
  rfl

def Ignores (x : Sides) (szDomainName : Text) : Prop :=
  ∃ packet extent out,
    sendDNSRequest x.usCurrentProcID szDomainName x.heap x.behind = .sent packet extent ∧
      reply x.spoofAddr x.server packet = some out ∧
      ∀ fuel, (x.parse fuel out).result = some .ignored

theorem reply_ignored (x : Sides) (h : Host) : Ignores x (text h.labels) := by
  obtain ⟨extent, hs⟩ := h.request_sent x.usCurrentProcID x.heap x.behind
  have hr := reply_query x.spoofAddr x.server (h.query x.usCurrentProcID)
  exact ⟨_, extent, _, hs, hr, fun fuel => assembled_ignored x fuel _ _ _ _⟩

theorem Ignores.not_agree (x : Sides) (szDomainName : Text) (h : Ignores x szDomainName) :
    ¬ Agree x szDomainName := by
  obtain ⟨packet', extent', out', hs', hr', hi⟩ := h
  rintro ⟨packet, extent, out, fuel, pDNSData, hs, hr, ha⟩
  rw [hs', SendResult.sent.injEq] at hs
  rw [hs.1, hr, Option.some.injEq] at hr'
  rw [hr', hi fuel] at ha
  cases ha

theorem never_agree (x : Sides) (h : Host) : ¬ Agree x (text h.labels) :=
  (reply_ignored x h).not_agree

def plainSides : Sides where
  usCurrentProcID := 7
  heap := fun _ => 0
  behind := 0
  recvbuf := CArray.zero recvbufSize
  beyond := fun _ => 0
  dot := fun _ => 0
  spoofAddr := ⟨192, 168, 4, 1⟩
  server := .start

def plainHost : Host where
  labels := hostLabels
  host := hostQuery_name 1
  valid := hostLabels_valid.labels
  short := by decide

theorem seeed_reply_ignored :
    ¬ Agree plainSides [0x73, 0x65, 0x65, 0x65, 0x64, 0x2e, 0x63, 0x63] := by
  have ht : text plainHost.labels = [0x73, 0x65, 0x65, 0x65, 0x64, 0x2e, 0x63, 0x63] := by decide
  have h := (reply_ignored plainSides plainHost).not_agree
  rwa [ht] at h

end FasterConfig.DnsAgree
