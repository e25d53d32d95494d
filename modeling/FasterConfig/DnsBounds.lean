import FasterConfig.DnsEcho
import FasterConfig.Runs

/-!
# How far a reply reaches

The reply is as long as the text of the name, the records of its type and
eighteen octets more. The text may be four times as long as the name on the
wire, so no limit on the wire keeps the reply inside the buffer; what does is
a bound on the text and the records together.
-/

set_option autoImplicit false

namespace FasterConfig.DnsBounds
open FasterConfig.Octets FasterConfig.DomainName FasterConfig.Resolv FasterConfig.DnsServer
open FasterConfig.DnsReply FasterConfig.DnsEcho FasterConfig.Runs

def replyLength (tType : UInt16) : ℕ :=
  if tType = nsTTxt ∨ tType = nsTPtr ∨ tType = nsTAaaa ∨ tType = nsTA then 16
  else if tType = nsTMx then 42
  else if tType = nsTWins then 16
  else if tType = nsTSrv then 44
  else 46

theorem length_prepareReply (spoofAddr : InAddr) (tType : UInt16) :
    (prepareReply spoofAddr tType).data.length = replyLength tType := by
  unfold prepareReply replyLength
  split_ifs <;> rfl

theorem length_assemble (transId : UInt16) (name : List UInt8) (tType tClass : UInt16) (r : Answer) :
    (assemble transId name tType tClass r).length = 18+name.length+r.data.length := by
  simp only [assemble, encodeSpoofDnsHeader, encodeQueryTypyAndClass, List.length_append,
    length_put16, length_encodeDomain]
  omega

def questionLabels (datagram : List UInt8) : Option (List Label) :=
  (nsNameUnpack (datagram.take bufferSize) 12 0 0).map Prod.fst

/-- Characters of the name as text: four for an octet outside 0x21..0x7e, two for a special
one, one for any other, and the dots. If the name is refused it is the text left in the array. -/
def nameWidth (old : List UInt8) : Option (List Label) → ℕ
  | some ls => (ls.map labelWidth).sum+(ls.length-1)
  | none => old.length

theorem length_nameAfter (old datagram : List UInt8) :
    (nameAfter old (question datagram)).length = nameWidth old (questionLabels datagram) := by
  rw [question, questionLabels, dnExpand_eq]
  cases nsNameUnpack (datagram.take bufferSize) 12 0 0 with
  | none => rfl
  | some r => exact length_text r.1

def Passes (s : State) (datagram : List UInt8) : Prop :=
  Answered (s.buffer.receive datagram) (question datagram)

def questionType (s : State) (datagram : List UInt8) : UInt16 :=
  nsGet16 (s.buffer.receive datagram) (typeOffset (question datagram))

/-- Text of the name and records of the type leave room for header, type and class. -/
def Fits (s : State) (datagram : List UInt8) : Prop :=
  nameWidth s.name (questionLabels datagram)+replyLength (questionType s datagram) ≤ bufferSize-18

theorem reply_length (spoofAddr : InAddr) (s : State) (datagram out : List UInt8)
    (h : reply spoofAddr s datagram = some out) :
    Passes s datagram ∧ out.length =
      18+nameWidth s.name (questionLabels datagram)+replyLength (questionType s datagram) := by
  rw [reply_eq] at h
  split_ifs at h with hc
  obtain rfl := Option.some.inj h
  refine ⟨hc, ?_⟩
  rw [answer, length_assemble, length_nameAfter, length_prepareReply]
  rfl

theorem reply_fits_iff (spoofAddr : InAddr) (s : State) (datagram : List UInt8) :
    (∀ out, reply spoofAddr s datagram = some out → out.length ≤ bufferSize) ↔
      (Passes s datagram → Fits s datagram) := by
  constructor
  · intro h ha
    have hr : reply spoofAddr s datagram =
        some (answer spoofAddr (s.buffer.receive datagram) s.name (question datagram)) := by
      rw [reply_eq]
      exact if_pos ha
    have hl := (reply_length spoofAddr s datagram _ hr).2
    have hb := h _ hr
    simp only [Fits, bufferSize] at *
    omega
  · intro h out hr
    obtain ⟨ha, hl⟩ := reply_length spoofAddr s datagram out hr
    have hf := h ha
    simp only [Fits, bufferSize] at *
    omega

/-- In every run, from any memory contents, all replies stay inside the buffer exactly
when every datagram that is answered fits in the state that receives it. -/
theorem replies_inside_buffer_iff (spoofAddr : InAddr) (s : State) (ds : List (List UInt8)) :
    (∀ pre d, pre ++ [d] <+: ds → ∀ out, reply spoofAddr (serveAll spoofAddr s pre) d = some out →
      out.length ≤ bufferSize) ↔
    ∀ pre d, pre ++ [d] <+: ds → Passes (serveAll spoofAddr s pre) d →
      Fits (serveAll spoofAddr s pre) d := by
  simp only [← reply_fits_iff spoofAddr]

def zeroes (ns : List ℕ) : List Label := ns.map fun n => List.replicate n 0

theorem length_wire_zeroes (ns : List ℕ) : (wire (zeroes ns)).length = ns.sum+ns.length+1 := by
  simp only [length_wire, length_wireLabels, zeroes, List.map_map, Function.comp_def,
    List.length_replicate, List.map_id', List.length_map]

theorem labelWidth_zeroes (ns : List ℕ) : (zeroes ns).map labelWidth = ns.map (fun n => n*4) := by
  have hw : width 0 = 4 := by decide
  simp only [zeroes, List.map_map, Function.comp_def, labelWidth, List.map_replicate, hw,
    List.sum_replicate_nat]

theorem zeroes_valid : ValidName (zeroes [63, 63, 63, 61]) where
  labels := by
    intro l hl
    obtain ⟨n, hn, rfl⟩ := List.mem_map.mp hl
    simp only [List.mem_cons, List.not_mem_nil, or_false] at hn
    constructor <;> rw [List.length_replicate] <;> omega
  total := by
    rw [length_wire_zeroes]
    decide

def zeroesQuery : Query := .ask (zeroes [63, 63, 63, 61]) nsTA zeroes_valid

theorem zeroes_overrun_buffer : zeroesQuery.datagram.length = 271 ∧
    ∃ out, reply ⟨172, 31, 1, 2⟩ State.start zeroesQuery.datagram = some out ∧
      out.length = 1037 ∧ bufferSize < out.length := by
  have hlen : ∀ n : ℕ, n = 1037 → n = 1037 ∧ bufferSize < n := by
    rintro n rfl
    exact ⟨rfl, by decide⟩
  refine ⟨?_, _, reply_query _ _ _, hlen _ ?_⟩
  · simp only [Query.datagram, Query.question, List.length_append, header_length, length_put16]
    rw [show zeroesQuery.qname = zeroes [63, 63, 63, 61] from rfl, length_wire_zeroes]
    rfl
  · rw [length_assemble, length_prepareReply, length_text,
      show zeroesQuery.qname = zeroes [63, 63, 63, 61] from rfl, labelWidth_zeroes]
    rfl

end FasterConfig.DnsBounds
