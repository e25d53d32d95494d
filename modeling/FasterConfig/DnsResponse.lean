import FasterConfig.DnsQuestions
import FasterConfig.Strings

/-!
# From the query to the response

The resolver hands name and header of the query to the response. The name
still has the dot behind its last label, for which the coder writes an empty
label of its own, and the fixed words behind it start one octet late.
-/

set_option autoImplicit false

namespace FasterConfig.DnsResponse
open FasterConfig.Octets FasterConfig.DomainName FasterConfig.Memory FasterConfig.Strings
open FasterConfig.DnsQuery FasterConfig.DnsQname FasterConfig.DnsQuestions

/-- The fields that are set and used. -/
structure Response where
  usHeader : DNSHeader
  m_name : Text
  deriving DecidableEq, Repr

def process (query : Query) (response : Response) : Response :=
  { response with m_name := query.m_qName, usHeader := query.usHeader }

/-! ## Writing through a pointer -/

structure Cursor where
  mem : Mem
  buffer : ℕ

namespace Cursor

def put (c : Cursor) (w : List UInt8) : Cursor := ⟨store c.mem c.buffer w, c.buffer+w.length⟩

def put16bits (c : Cursor) (value : UInt16) : Cursor := c.put (put16 value)

theorem put_put (c : Cursor) (u w : List UInt8) : (c.put u).put w = c.put (u ++ w) := by
  rw [put, put, put, store_append, List.length_append, Nat.add_assoc]

end Cursor

/-- The pointer is passed by value, so that the caller moves on by itself. -/
def codeHdr (response : Response) (mem : Mem) (buffer : ℕ) : Mem :=
  (((((((⟨mem, buffer⟩ : Cursor).put16bits response.usHeader.usTransID).put16bits 0x8580).put16bits
    0x0001).put16bits 0x0001).put16bits 0x0000).put16bits 0x0000).mem

/-- One label for each dot, one for what follows the last dot, and a zero octet. -/
def codeDomain (c : Cursor) (domain : Text) : Cursor :=
  match _h : strchr 0x2e domain with
  | some (label, rest) => codeDomain ((c.put [UInt8.ofNat label.length]).put label) rest
  | none => ((c.put [UInt8.ofNat domain.length]).put domain).put [0]
termination_by domain.length
decreasing_by
  have := length_strchr _ _ _ _h
  simp only at this
  omega

/-- The memory and the size that `Response::code` returns. -/
def code (response : Response) (mem : Mem) (bufferBegin : ℕ) : Mem × ℕ :=
  let buffer := ⟨codeHdr response mem bufferBegin, bufferBegin+hdrOffset⟩
  let buffer := codeDomain buffer response.m_name
  let buffer := (((buffer.put16bits 0x0100).put16bits 0x01c0).put16bits 0x0c00).put16bits 0x0100
  let buffer := ((buffer.put16bits 0x0100).put16bits 0x0000).put16bits 0x0000
  let buffer := (buffer.put16bits 0x04ac).put16bits 0x1fff
  let buffer := buffer.put [0xf0]
  (buffer.mem, buffer.buffer-bufferBegin)

/-! ## The name written back -/

theorem codeDomain_label (c : Cursor) (l : Label) (rest : Text) (hl : 0x2e ∉ l) :
    codeDomain c (l ++ 0x2e::rest) = codeDomain (c.put (UInt8.ofNat l.length::l)) rest := by
  rw [codeDomain, strchr_append _ _ _ hl]
  simp only [Cursor.put_put, List.singleton_append]

/-- The text of the decoder has a dot behind its last label: one zero octet too many. -/
theorem codeDomain_dotted (c : Cursor) (ls : List Label) (hd : ∀ l ∈ ls, 0x2e ∉ l) :
    codeDomain c (dotted ls) = c.put (wire ls ++ [0]) := by
  induction ls generalizing c with
  | nil =>
    rw [codeDomain]
    simp only [dotted, List.flatMap_nil, Cursor.put_put]
    rfl
  | cons l ls ih =>
    have hdot : dotted (l::ls) = l ++ 0x2e::dotted ls := by
      simp [dotted]
    rw [hdot, codeDomain_label c l _ (hd l (by simp)), ih _ fun k hk => hd k (by simp [hk]),
      Cursor.put_put, wire, wire, wireLabels_cons]
    simp only [List.append_assoc, List.cons_append]

/-! ## The whole way -/

structure AddressQuery where
  id : UInt16
  flags : UInt16
  nscount : UInt16
  arcount : UInt16
  qname : List Label
  nonempty : qname ≠ []
  valid : ∀ l ∈ qname, ValidLabel l
  dotless : ∀ l ∈ qname, 0x2e ∉ l

namespace AddressQuery

def encoded (m : AddressQuery) : EncodedQuery where
  id := m.id
  flags := m.flags
  nscount := m.nscount
  arcount := m.arcount
  questions := [⟨m.qname, 1, 1⟩]
  valid := by
    simp only [List.mem_singleton, forall_eq]
    exact m.valid
  count := by simp

def room (m : AddressQuery) : ℕ := (m.qname.headD []).length+1

def copies (m : AddressQuery) : List (ℕ × ℕ × ℕ) := copiesOf 0 m.room m.qname

def question (m : AddressQuery) : List UInt8 := wire m.qname ++ (put16 1 ++ put16 1)

def datagram (m : AddressQuery) (further : List UInt8) : List UInt8 :=
  encodeHeader ⟨m.id, m.flags, 1, 0, m.nscount, m.arcount⟩ ++ (m.question ++ further)

def reply (m : AddressQuery) : List UInt8 :=
  encodeHeader ⟨m.id, 0x8580, 1, 1, 0, 0⟩ ++ (m.question ++
    (put16 0xc00c ++ (put16 1 ++ (put16 1 ++ (put32 0 ++ (put16 4 ++ [172, 31, 255, 240]))))))

end AddressQuery

theorem first_block (buffer : Mem) (p : ℕ) (ls : List Label) (hv : ∀ l ∈ ls, ValidLabel l)
    (h : Holds buffer p (wire ls)) : (buffer p).toNat+1 = (ls.headD []).length+1 := by
  cases ls with
  | nil => rw [(holds_root _ _).mp h, List.headD_nil]; rfl
  | cons l ls =>
    rw [(label_read buffer p l (hv l List.mem_cons_self) ((holds_wire_cons _ _ _ _).mp h).1).1,
      List.headD_cons]

theorem decode_address (m : AddressQuery) (further : List UInt8) (behind : Mem)
    (fresh freshAnswers : ℕ → ℕ) (qName : List UInt8) (fuel : ℕ) (hf : m.qname.length < fuel) :
    ∃ q, decode (load (m.datagram further) behind) fuel fresh freshAnswers qName = some q ∧
      q.usHeader.usTransID = m.id ∧ q.m_qName = dotted m.qname ∧
      ∀ e ∈ q.usQuestionSection ++ q.usAnswerSection, e.copies = m.copies := by
  have hd : m.datagram further = m.encoded.datagram ++ further := by
    simp only [AddressQuery.datagram, EncodedQuery.datagram, EncodedQuery.body, List.append_assoc]
    simp only [AddressQuery.encoded, List.flatMap_cons, List.flatMap_nil, List.append_nil]
    rfl
  rw [hd, load_append, decode_eq]
  generalize hb : (load m.encoded.datagram _) = buffer
  have hname : Holds buffer hdrOffset (wire m.qname) := by
    rw [← hb, holds_load]
    · simp only [EncodedQuery.datagram]
      rw [hdrOffset, ← length_encodeHeader m.encoded.header, List.drop_left]
      simp [EncodedQuery.body, AddressQuery.encoded, Asked.encode]
    · simp only [EncodedQuery.datagram, List.length_append, length_encodeHeader, hdrOffset]
      simp [EncodedQuery.body, AddressQuery.encoded, Asked.encode]
  obtain ⟨s, hs, hn⟩ := qnameLoop_wire buffer m.qname m.valid fuel hf
    ⟨hdrOffset, [], [], fresh 0, (buffer hdrOffset).toNat+1, []⟩ hname
  have hcopies := qnameLoop_copies buffer m.qname m.valid fuel _ s hname hs
  have hfirst : (buffer hdrOffset).toNat+1 = m.room := first_block buffer hdrOffset m.qname m.valid hname
  simp only [List.nil_append, List.length_nil, hfirst] at hcopies
  have hone : m.encoded.questions.length = 1 := rfl
  simp only [hone, decodeSections, decodeQname, hs, Option.bind_eq_bind, Option.bind_some,
    Option.pure_def, Option.map_some, Option.some.injEq, exists_eq_left', List.append_nil, List.mem_singleton, forall_eq]
  exact ⟨rfl, hn.text, hcopies⟩

theorem code_address (m : AddressQuery) (r : Response) (mem : Mem) (bufferBegin : ℕ)
    (hid : r.usHeader.usTransID = m.id) (hn : r.m_name = dotted m.qname) :
    code r mem bufferBegin = (store mem bufferBegin m.reply, m.reply.length) := by
  have hh : (⟨codeHdr r mem bufferBegin, bufferBegin+hdrOffset⟩ : Cursor) =
      (⟨mem, bufferBegin⟩ : Cursor).put (encodeHeader ⟨m.id, 0x8580, 1, 1, 0, 0⟩) := by
    simp only [codeHdr, Cursor.put16bits, Cursor.put_put, hid]
    rfl
  have hw : m.reply = encodeHeader ⟨m.id, 0x8580, 1, 1, 0, 0⟩ ++ (wire m.qname ++ ([0] ++
      (put16 0x0100 ++ (put16 0x01c0 ++ (put16 0x0c00 ++ (put16 0x0100 ++ (put16 0x0100 ++
        (put16 0x0000 ++ (put16 0x0000 ++ (put16 0x04ac ++ (put16 0x1fff ++ [0xf0]))))))))))) := by
    simp only [AddressQuery.reply, AddressQuery.question, List.append_assoc]
    rfl
  simp only [code, hh, hn, codeDomain_dotted _ _ m.dotless, Cursor.put16bits, Cursor.put_put]
  simp only [Cursor.put, hw, List.append_assoc]
  rw [Nat.add_sub_cancel_left]

theorem address_answered (m : AddressQuery) (further : List UInt8) (behind : Mem)
    (fresh freshAnswers : ℕ → ℕ) (qName : List UInt8) (r : Response) (mem : Mem)
    (bufferBegin spare : ℕ) :
    ∃ q, decode (load (m.datagram further) behind) (m.qname.length+1+spare) fresh freshAnswers
        qName = some q ∧
      (code (process q r) mem bufferBegin).2 = m.reply.length ∧
      Holds (code (process q r) mem bufferBegin).1 bufferBegin m.reply := by
  obtain ⟨q, hq, hid, hn, -⟩ := decode_address m further behind fresh freshAnswers qName
    (m.qname.length+1+spare) (by omega)
  have hc := code_address m (process q r) mem bufferBegin hid hn
  refine ⟨q, hq, ?_⟩
  rw [hc]
  exact ⟨rfl, holds_store _ _ _⟩

def baiduLabels : List Label := [ascii "www", ascii "baidu", ascii "com"]

theorem baiduLabels_plain : (∀ l ∈ baiduLabels, 0 < l.length ∧ l.length ≤ 63) ∧
    ∀ l ∈ baiduLabels, 0x2e ∉ l := by decide

def baiduQuery : AddressQuery where
  id := 7
  flags := 0x0100
  nscount := 0
  arcount := 0
  qname := baiduLabels
  nonempty := List.cons_ne_nil _ _
  valid l hl := ⟨(baiduLabels_plain.1 l hl).1, (baiduLabels_plain.1 l hl).2⟩
  dotless := baiduLabels_plain.2

theorem baidu_answered : ∃ q, decode (load (baiduQuery.datagram []) fun _ => 0) 4 (fun _ => 0)
      (fun _ => 0) [] = some q ∧
    (code (process q ⟨⟨0, 0, 0, 0, 0, 0⟩, []⟩) (fun _ => 0) 0).2 = 47 ∧
    Holds (code (process q ⟨⟨0, 0, 0, 0, 0, 0⟩, []⟩) (fun _ => 0) 0).1 0 baiduQuery.reply :=
  address_answered baiduQuery [] (fun _ => 0) (fun _ => 0) (fun _ => 0) [] _ (fun _ => 0) 0 0

end FasterConfig.DnsResponse
