import FasterConfig.DnsEcho
import FasterConfig.Rfc1035
import FasterConfig.Strings

/-!
# Replies as messages

Each builder's octets are those of whole records, and its counters say in
which sections they stand. The builder for WINS raises no counter, so behind
the question of such a reply its record is left over.
-/

set_option autoImplicit false

namespace FasterConfig.DnsWellFormed
open FasterConfig.Octets FasterConfig.DomainName FasterConfig.DnsServer FasterConfig.DnsReply
open FasterConfig.DnsEcho FasterConfig.Rfc1035

/-! ## Records of the builders -/

def questionName : Name := ⟨[], .pointer 12⟩
def mail : Name := ⟨[[0x6d, 0x61, 0x69, 0x6c]], .pointer 12⟩
def srv : Name := ⟨[[0x73, 0x72, 0x76]], .pointer 12⟩
def ns1 : Name := ⟨[[0x6e, 0x73, 0x31]], .pointer 12⟩
def abuse : Name := ⟨[[0x61, 0x62, 0x75, 0x73, 0x65]], .pointer 12⟩

def recordA (owner : Name) (spoofAddr : InAddr) : Record :=
  ⟨owner, typeA, 1, 3600, spoofAddr.octets⟩

def recordMx : Record := ⟨questionName, typeMx, 1, 3600, put16 10 ++ mail.encode⟩

def recordSrv : Record :=
  ⟨questionName, typeSrv, 1, 3600, put16 0 ++ put16 0 ++ put16 2048 ++ srv.encode⟩

def recordSoa : Record :=
  ⟨questionName, typeSoa, 1, 3600, ns1.encode ++ abuse.encode ++
    (put32 0x517957f5 ++ put32 3600 ++ put32 600 ++ put32 604800 ++ put32 60)⟩

structure Sections where
  answers : List Record
  authority : List Record
  additional : List Record

def Sections.records (x : Sections) : List Record := x.answers ++ (x.authority ++ x.additional)

/-- What the counters of `prepareReply` announce. -/
def sections (spoofAddr : InAddr) (tType : UInt16) : Sections :=
  if tType = nsTTxt ∨ tType = nsTPtr ∨ tType = nsTAaaa ∨ tType = nsTA then
    ⟨[recordA questionName spoofAddr], [], []⟩
  else if tType = nsTMx then ⟨[recordMx], [], [recordA mail spoofAddr]⟩
  else if tType = nsTWins then ⟨[], [], []⟩
  else if tType = nsTSrv then ⟨[recordSrv], [], [recordA srv spoofAddr]⟩
  else ⟨[], [recordSoa], []⟩

/-- Octets behind the announced records. -/
def leftover (spoofAddr : InAddr) (tType : UInt16) : List UInt8 :=
  if tType = nsTWins then (prepareDnsReplyWins spoofAddr).data else []

theorem recordA_encode (owner : Name) (spoofAddr : InAddr) :
    (recordA owner spoofAddr).encode =
      owner.encode ++ ([0x00, 0x01, 0x00, 0x01] ++ dnsTtl ++ [0x00, 0x04] ++ spoofAddr.octets) := by
  have hl : (recordA owner spoofAddr).rdata.length = 4 := rfl
  have hclass : put16 1 = [0x00, 0x01] := by decide
  have httl : put32 3600 = dnsTtl := by decide
  have hlen : put16 (UInt16.ofNat 4) = [0x00, 0x04] := by decide
  rw [Record.encode, hl, hlen]
  simp only [recordA, typeA, hclass, httl]
  rfl

theorem prepareReply_data (spoofAddr : InAddr) (tType : UInt16) :
    (prepareReply spoofAddr tType).data =
      (sections spoofAddr tType).records.flatMap Record.encode ++ leftover spoofAddr tType := by
  unfold prepareReply sections leftover
  by_cases hw : tType = nsTWins
  · subst hw
    rfl
  · rw [if_neg hw, if_neg hw, if_neg hw, List.append_nil]
    split_ifs <;>
      simp only [Sections.records, List.nil_append, List.cons_append, List.flatMap_cons,
        List.flatMap_nil, recordA_encode] <;> rfl

theorem prepareReply_counters (spoofAddr : InAddr) (tType : UInt16) :
    (prepareReply spoofAddr tType).nAnsw = UInt16.ofNat (sections spoofAddr tType).answers.length ∧
    (prepareReply spoofAddr tType).nAuth = UInt16.ofNat (sections spoofAddr tType).authority.length ∧
    (prepareReply spoofAddr tType).nAddi = UInt16.ofNat (sections spoofAddr tType).additional.length := by
  unfold prepareReply sections
  split_ifs <;> exact ⟨rfl, rfl, rfl⟩

/-! ## Their layout -/

theorem valid_single (l : Label) (h : 1 ≤ l.length ∧ l.length ≤ 63) : Name.Valid ⟨[l], .pointer 12⟩ :=
  ⟨fun k hk => List.mem_singleton.mp hk ▸ ⟨h.1, h.2⟩, show 12 < 16384 by decide⟩

theorem questionName_valid : questionName.Valid :=
  ⟨by simp [questionName], show 12 < 16384 by decide⟩
theorem mail_valid : mail.Valid := valid_single _ (by decide)
theorem srv_valid : srv.Valid := valid_single _ (by decide)
theorem ns1_valid : ns1.Valid := valid_single _ (by decide)
theorem abuse_valid : abuse.Valid := valid_single _ (by decide)

theorem parseName_all (n : Name) (h : n.Valid) : parseName n.encode = some (n, []) := by
  simpa using parseName_encode n h []

structure Good (r : Record) : Prop where
  valid : r.Valid
  sound : r.Sound 12

theorem sound_of_pointers (r : Record) (ns : List Name) (hn : rdataNames r.rtype r.rdata = some ns)
    (ht : ∀ n ∈ r.owner::ns, n.tail = .pointer 12) : r.Sound 12 := by
  refine ⟨ns, hn, fun n hm o ho => ?_⟩
  rw [ht n hm] at ho
  exact (Tail.pointer.inj ho).symm

theorem recordA_good (ls : List Label) (h : Name.Valid ⟨ls, .pointer 12⟩) (spoofAddr : InAddr) :
    Good (recordA ⟨ls, .pointer 12⟩ spoofAddr) where
  valid := ⟨h, show 4 < 65536 by decide⟩
  sound := sound_of_pointers _ [] rfl (by simp [recordA])

theorem recordMx_good : Good recordMx where
  valid := ⟨questionName_valid, by decide⟩
  sound := by
    apply sound_of_pointers recordMx [mail]
    · have hd : recordMx.rdata.drop 2 = mail.encode := rfl
      rw [rdataNames, if_neg (by decide), if_pos (by decide), hd, parseName_all mail mail_valid]
    · decide

theorem recordSrv_good : Good recordSrv where
  valid := ⟨questionName_valid, by decide⟩
  sound := by
    apply sound_of_pointers recordSrv [srv]
    · have hd : recordSrv.rdata.drop 6 = srv.encode := rfl
      rw [rdataNames, if_neg (by decide), if_neg (by decide), if_pos (by decide), hd,
        parseName_all srv srv_valid]
    · decide

theorem recordSoa_good : Good recordSoa where
  valid := ⟨questionName_valid, by decide⟩
  sound := by
    apply sound_of_pointers recordSoa [ns1, abuse]
    · simp only [recordSoa, List.append_assoc, rdataNames]
      rw [if_neg (by decide), if_neg (by decide), if_neg (by decide), if_pos trivial,
        parseName_encode ns1 ns1_valid]
      simp only [parseName_encode abuse abuse_valid]
      rfl
    · decide

theorem sections_good (spoofAddr : InAddr) (tType : UInt16) :
    ∀ r ∈ (sections spoofAddr tType).records, Good r := by
  have hq := recordA_good [] questionName_valid spoofAddr
  have hm := recordA_good _ mail_valid spoofAddr
  have hs := recordA_good _ srv_valid spoofAddr
  unfold sections
  split_ifs <;> intro r hr <;>
    simp only [Sections.records, List.nil_append, List.cons_append, List.mem_cons, List.not_mem_nil,
      or_false] at hr
  · exact hr ▸ hq
  · rcases hr with rfl | rfl
    · exact recordMx_good
    · exact hm
  · rcases hr with rfl | rfl
    · exact recordSrv_good
    · exact hs
  · exact hr ▸ recordSoa_good

/-! ## The whole reply -/

def askedQuestion (q : Query) : Question := ⟨⟨q.qname, .root⟩, q.qtype, nsCIn⟩

def replyMessage (spoofAddr : InAddr) (q : Query) : Message where
  id := q.id
  flags := 0x8400
  questions := [askedQuestion q]
  answers := (sections spoofAddr q.qtype).answers
  authority := (sections spoofAddr q.qtype).authority
  additional := (sections spoofAddr q.qtype).additional

theorem sections_length (spoofAddr : InAddr) (tType : UInt16) :
    (sections spoofAddr tType).answers.length ≤ 1 ∧ (sections spoofAddr tType).authority.length ≤ 1 ∧
      (sections spoofAddr tType).additional.length ≤ 1 := by
  unfold sections
  split_ifs <;> simp

theorem replyMessage_valid (spoofAddr : InAddr) (q : Query) : (replyMessage spoofAddr q).Valid where
  questions := by
    intro p hp
    rw [List.mem_singleton.mp hp]
    exact ⟨q.valid.labels, trivial⟩
  records := fun r hr => (sections_good spoofAddr q.qtype r hr).valid
  qdcount := by simp [replyMessage]
  ancount := lt_of_le_of_lt (sections_length spoofAddr q.qtype).1 (by decide)
  nscount := lt_of_le_of_lt (sections_length spoofAddr q.qtype).2.1 (by decide)
  arcount := lt_of_le_of_lt (sections_length spoofAddr q.qtype).2.2 (by decide)

theorem reply_plain (spoofAddr : InAddr) (s : State) (q : Query) (h : PlainName q.qname) :
    reply spoofAddr s q.datagram =
      some ((replyMessage spoofAddr q).encode ++ leftover spoofAddr q.qtype) := by
  obtain ⟨h1, h2, h3⟩ := prepareReply_counters spoofAddr q.qtype
  rw [reply_query, assemble, encodeDomain_plain _ h, prepareReply_data, h1, h2, h3]
  simp [encodeSpoofDnsHeader, encodeQueryTypyAndClass, Message.encode, replyMessage, askedQuestion,
    Question.encode, Name.encode, Tail.encode, wire, Sections.records]

/-- The whole reply is one message: the question asked, then records whose data has the
layout of its type and whose pointers all go to the question name behind the header. -/
def WellFormed (q : Query) (out : List UInt8) : Prop :=
  ∃ m, parseMessage out = some (m, []) ∧ m.questions = [askedQuestion q] ∧
    ∀ r ∈ m.records, r.Sound q.header.length

theorem parse_reply (spoofAddr : InAddr) (q : Query) :
    parseMessage ((replyMessage spoofAddr q).encode ++ leftover spoofAddr q.qtype) =
      some (replyMessage spoofAddr q, leftover spoofAddr q.qtype) :=
  parseMessage_encode _ (replyMessage_valid spoofAddr q) _

theorem leftover_eq_nil_iff (spoofAddr : InAddr) (tType : UInt16) :
    leftover spoofAddr tType = [] ↔ tType ≠ nsTWins := by
  unfold leftover
  split_ifs with hw
  · exact ⟨fun h => absurd (congrArg List.length h) (show 16 ≠ 0 by decide), fun h => absurd hw h⟩
  · exact ⟨fun _ => hw, fun _ => rfl⟩

theorem wellFormed_iff (spoofAddr : InAddr) (q : Query) :
    WellFormed q ((replyMessage spoofAddr q).encode ++ leftover spoofAddr q.qtype) ↔
      q.qtype ≠ nsTWins := by
  rw [← leftover_eq_nil_iff spoofAddr q.qtype]
  constructor
  · rintro ⟨m, hm, -⟩
    rw [parse_reply] at hm
    exact (Prod.mk.inj (Option.some.inj hm)).2
  · intro hl
    refine ⟨replyMessage spoofAddr q, ?_, rfl, fun r hr => (sections_good spoofAddr q.qtype r hr).sound⟩
    rw [parse_reply, hl]

/-! ## Host names -/

def hostOctet (c : UInt8) : Bool :=
  (0x30 ≤ c ∧ c ≤ 0x39) ∨ (0x41 ≤ c ∧ c ≤ 0x5a) ∨ (0x61 ≤ c ∧ c ≤ 0x7a) ∨ c = 0x2d ∨ c = 0x5f

def HostName (ls : List Label) : Prop := ls ≠ [] ∧ ∀ l ∈ ls, ∀ c ∈ l, hostOctet c = true

theorem hostOctet_plain (c : UInt8) (h : hostOctet c = true) : Plain c := by
  have hall : ∀ c, hostOctet c = true → Plain c := Strings.octet_induction (by decide +kernel)
  exact hall c h

theorem hostName_plain (ls : List Label) (h : HostName ls) : PlainName ls :=
  ⟨h.1, fun l hl c hc => hostOctet_plain c (h.2 l hl c hc)⟩

/-- Replies to questions about host names are well formed for every type but WINS. -/
theorem reply_well_formed_iff (spoofAddr : InAddr) (s : State) (q : Query) (h : HostName q.qname) :
    (∃ out, reply spoofAddr s q.datagram = some out ∧ WellFormed q out) ↔ q.qtype ≠ nsTWins := by
  rw [reply_plain spoofAddr s q (hostName_plain _ h), ← wellFormed_iff spoofAddr q]
  constructor
  · rintro ⟨out, ho, hw⟩
    exact Option.some.inj ho ▸ hw
  · exact fun hw => ⟨_, rfl, hw⟩

def hostLabels : List Label := [[0x73, 0x65, 0x65, 0x65, 0x64], [0x63, 0x63]] -- seeed.cc

theorem hostLabels_valid : ValidName hostLabels where
  labels := by
    intro l hl
    simp only [hostLabels, List.mem_cons, List.not_mem_nil, or_false] at hl
    rcases hl with rfl | rfl <;> exact ⟨by decide, by decide⟩
  total := by decide

def hostQuery (tType : UInt16) : Query := .ask hostLabels tType hostLabels_valid

theorem hostQuery_name (tType : UInt16) : HostName (hostQuery tType).qname :=
  ⟨List.cons_ne_nil _ _, show ∀ l ∈ hostLabels, ∀ c ∈ l, hostOctet c = true by decide +kernel⟩

theorem mx_reply_well_formed :
    ∃ out, reply ⟨172, 31, 1, 2⟩ State.start (hostQuery nsTMx).datagram = some out ∧
      WellFormed (hostQuery nsTMx) out :=
  (reply_well_formed_iff ⟨172, 31, 1, 2⟩ State.start (hostQuery nsTMx) (hostQuery_name nsTMx)).mpr
    (by decide)

theorem wins_reply_left_over :
    HostName (hostQuery nsTWins).qname ∧
      ¬ ∃ out, reply ⟨172, 31, 1, 2⟩ State.start (hostQuery nsTWins).datagram = some out ∧
        WellFormed (hostQuery nsTWins) out := by
  refine ⟨hostQuery_name nsTWins, ?_⟩
  rintro ⟨out, ho, hw⟩
  rw [reply_plain _ _ _ (hostName_plain _ (hostQuery_name nsTWins))] at ho
  obtain rfl := Option.some.inj ho
  exact absurd rfl ((wellFormed_iff ⟨172, 31, 1, 2⟩ (hostQuery nsTWins)).mp hw)

end FasterConfig.DnsWellFormed
