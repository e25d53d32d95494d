import FasterConfig.DnsServer

/-!
# What one pass answers

A pass answers exactly when the class it has read is IN and the header in the
buffer is that of a standard query. On a query with one uncompressed question
everything it reads is in the datagram, so the reply is a function of it.
-/

set_option autoImplicit false

namespace FasterConfig.DnsReply
open FasterConfig.Octets FasterConfig.DomainName FasterConfig.Resolv FasterConfig.DnsServer

def question (datagram : List UInt8) : Option (ℕ × List UInt8) :=
  dnExpand (datagram.take bufferSize) 12 nsMaxdname

theorem expanded_eq (b : Buffer) (datagram : List UInt8) :
    dnExpand ((b.receive datagram).octets.take (datagram.take bufferSize).length) 12 nsMaxdname =
      question datagram := by
  rw [question, CArray.receive_prefix]

/-- The reply of a pass in which the buffer holds `b`, the name array `old` and the
question name has come out as `e`. -/
def answer (spoofAddr : InAddr) (b : Buffer) (old : List UInt8) (e : Option (ℕ × List UInt8)) :
    List UInt8 :=
  assemble (nsGet16 b 0) (nameAfter old e) (nsGet16 b (typeOffset e)) nsCIn
    (prepareReply spoofAddr (nsGet16 b (typeOffset e)))

def Answered (b : Buffer) (e : Option (ℕ × List UInt8)) : Prop :=
  nsGet16 b (typeOffset e+2) = nsCIn ∧ isQuery b = true

instance (b : Buffer) (e : Option (ℕ × List UInt8)) : Decidable (Answered b e) :=
  inferInstanceAs (Decidable (_ ∧ _))

theorem reply_eq (spoofAddr : InAddr) (s : State) (datagram : List UInt8) :
    reply spoofAddr s datagram =
      if Answered (s.buffer.receive datagram) (question datagram) then
        some (answer spoofAddr (s.buffer.receive datagram) s.name (question datagram))
      else none := by
  simp only [reply, iteration, expanded_eq, Answered]
  by_cases hc : nsGet16 (s.buffer.receive datagram) (typeOffset (question datagram)+2) = nsCIn
  · by_cases hq : isQuery (s.buffer.receive datagram) = true <;> simp [hc, hq, answer]
  · simp [hc]

theorem serve_name (spoofAddr : InAddr) (s : State) (datagram : List UInt8) :
    (serve spoofAddr s datagram).name = nameAfter s.name (question datagram) := by
  simp only [serve, iteration, expanded_eq]
  split_ifs <;> rfl

theorem serve_buffer (spoofAddr : InAddr) (s : State) (datagram : List UInt8)
    (h : reply spoofAddr s datagram = none) :
    (serve spoofAddr s datagram).buffer = s.buffer.receive datagram := by
  simp only [reply, iteration, expanded_eq] at h
  simp only [serve, iteration, expanded_eq]
  split_ifs at h ⊢ <;> simp_all

theorem typeOffset_bounds (datagram : List UInt8) :
    11 ≤ typeOffset (question datagram) ∧ typeOffset (question datagram)+4 ≤ bufferSize := by
  cases h : question datagram with
  | none => exact ⟨by decide, by decide⟩
  | some r =>
    obtain ⟨hk, hb, -, -⟩ := dnExpand_spec _ _ _ _ _ h
    simp only [nsMaxcdname] at hb
    simp only [typeOffset, bufferSize]
    omega

theorem isQuery_iff (b : Buffer) : isQuery b = true ↔
    (b.get 2).toNat < 8 ∧ nsGet16 b 4 = 1 ∧ nsGet16 b 6 = 0 := by
  have h := (b.get 2).toNat_lt
  simp only [isQuery, nsOQuery, decide_eq_true_eq, ← and_assoc]
  apply and_congr_left'
  apply and_congr_left'
  omega

/-! ## Queries with one uncompressed question -/

/-- A standard query of class IN; the other header fields and what follows the
question are free. -/
structure Query where
  id : UInt16
  flags₀ : UInt8
  flags₁ : UInt8
  nscount : UInt16
  arcount : UInt16
  qname : List Label
  qtype : UInt16
  rest : List UInt8
  standard : flags₀.toNat < 8
  valid : ValidName qname

def Query.header (q : Query) : List UInt8 :=
  put16 q.id ++ [q.flags₀, q.flags₁] ++ put16 1 ++ put16 0 ++ put16 q.nscount ++ put16 q.arcount

def Query.question (q : Query) : List UInt8 := wire q.qname ++ put16 q.qtype ++ put16 nsCIn

def Query.datagram (q : Query) : List UInt8 := q.header ++ (q.question ++ q.rest)

def Query.ask (qname : List Label) (qtype : UInt16) (h : ValidName qname) : Query where
  id := 0x8a0f
  flags₀ := 0x01
  flags₁ := 0
  nscount := 0
  arcount := 0
  qname := qname
  qtype := qtype
  rest := []
  standard := by decide
  valid := h

theorem header_length (q : Query) : q.header.length = 12 := rfl

theorem query_question (q : Query) :
    DnsReply.question q.datagram = some ((wire q.qname).length, text q.qname) := by
  have ht := q.valid.total
  have htake : q.datagram.take bufferSize =
      q.header ++ (wire q.qname ++ (put16 q.qtype ++ put16 nsCIn ++ q.rest).take
        (bufferSize-12-(wire q.qname).length)) := by
    simp only [Query.datagram, Query.question, List.append_assoc]
    rw [List.take_append, List.take_of_length_le (by rw [header_length]; decide), header_length,
      List.take_append, List.take_of_length_le (by simp only [bufferSize]; omega)]
  rw [DnsReply.question, htake, ← header_length q]
  exact dnExpand_wire q.qname q.header _ q.valid

theorem query_get (q : Query) (b : Buffer) (i : ℕ) (hi : i < 16+(wire q.qname).length) :
    (b.receive q.datagram).get i = q.datagram.getD i 0 := by
  have ht := q.valid.total
  apply CArray.get_receive_new
  · simp only [Query.datagram, Query.question, List.length_append, header_length, length_put16]
    omega
  · simp only [bufferSize]
    omega

theorem query_type (q : Query) (b : Buffer) :
    nsGet16 (b.receive q.datagram) (12+(wire q.qname).length) = q.qtype ∧
      nsGet16 (b.receive q.datagram) (12+(wire q.qname).length+2) = nsCIn := by
  have hd : q.datagram = (q.header ++ wire q.qname) ++ (put16 q.qtype ++ (put16 nsCIn ++ q.rest)) := by
    simp [Query.datagram, Query.question]
  have hl : (q.header ++ wire q.qname).length = 12+(wire q.qname).length := by
    rw [List.length_append, header_length]
  have hg : ∀ i, i < 4 → (b.receive q.datagram).get (12+(wire q.qname).length+i) =
      (put16 q.qtype ++ (put16 nsCIn ++ q.rest)).getD i 0 := by
    intro i hi
    rw [query_get q b _ (by omega), hd, ← hl, List.getD_eq_getElem?_getD,
      List.getElem?_append_right (by omega), Nat.add_sub_cancel_left, List.getD_eq_getElem?_getD]
  constructor
  · simp only [nsGet16]
    rw [hg 1 (by omega), ← Nat.add_zero (12+(wire q.qname).length), hg 0 (by omega)]
    exact get16_put16 q.qtype
  · simp only [nsGet16, Nat.add_assoc]
    rw [← Nat.add_assoc, hg 2 (by omega), ← Nat.add_assoc, hg 3 (by omega)]
    exact get16_put16 nsCIn

theorem query_isQuery (q : Query) (b : Buffer) :
    isQuery (b.receive q.datagram) = true ∧ nsGet16 (b.receive q.datagram) 0 = q.id := by
  have hg : ∀ i, i < 12 → (b.receive q.datagram).get i = q.datagram.getD i 0 :=
    fun i hi => query_get q b i (by omega)
  simp only [isQuery_iff, nsGet16]
  rw [hg 2 (by decide), hg 4 (by decide), hg 5 (by decide), hg 6 (by decide), hg 7 (by decide),
    hg 0 (by decide), hg 1 (by decide)]
  exact ⟨⟨q.standard, get16_put16 1, get16_put16 0⟩, get16_put16 q.id⟩

/-- Every such query is answered, whatever the passes before it have left behind. -/
theorem reply_query (spoofAddr : InAddr) (s : State) (q : Query) :
    reply spoofAddr s q.datagram =
      some (assemble q.id (text q.qname) q.qtype nsCIn (prepareReply spoofAddr q.qtype)) := by
  obtain ⟨ht, hc⟩ := query_type q s.buffer
  obtain ⟨hq, hid⟩ := query_isQuery q s.buffer
  rw [reply_eq, query_question]
  simp only [answer, Answered, typeOffset, nameAfter, ht, hc, hq, hid, and_self, if_true]

end FasterConfig.DnsReply
