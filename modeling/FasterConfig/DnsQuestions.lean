import FasterConfig.DnsQname
import Mathlib.Data.List.Forall2

/-!
# Questions that are read back

The i-th question is read from four octets behind the place the one before it
was read from, whatever their names. It comes out right exactly when its own
octets happen to stand there, and all flags come out as zero. A name of more
than one label is copied past the end of its block on the way.
-/

set_option autoImplicit false

namespace FasterConfig.DnsQuestions
open FasterConfig.Octets FasterConfig.DomainName FasterConfig.Memory FasterConfig.DnsQuery
open FasterConfig.DnsQname

structure Asked where
  qname : List Label
  qtype : UInt16
  qclass : UInt16
  deriving DecidableEq, Repr

def Asked.fields (q : Asked) : List UInt8 := put16 q.qtype ++ put16 q.qclass

def Asked.encode (q : Asked) : List UInt8 := wire q.qname ++ q.fields

/-- A header with `ANCOUNT` 0 and as many questions behind it as it announces. -/
structure EncodedQuery where
  id : UInt16
  flags : UInt16
  nscount : UInt16
  arcount : UInt16
  questions : List Asked
  valid : ∀ q ∈ questions, ∀ l ∈ q.qname, ValidLabel l
  count : questions.length < 65536

def EncodedQuery.header (m : EncodedQuery) : DNSHeader :=
  ⟨m.id, m.flags, UInt16.ofNat m.questions.length, 0, m.nscount, m.arcount⟩

def encodeHeader (h : DNSHeader) : List UInt8 :=
  put16 h.usTransID ++ (put16 h.usFlags ++ (put16 h.usQDCOUNT ++ (put16 h.usANCOUNT ++
    (put16 h.usNSCOUNT ++ put16 h.usARCOUNT))))

def EncodedQuery.body (m : EncodedQuery) : List UInt8 := m.questions.flatMap Asked.encode

def EncodedQuery.datagram (m : EncodedQuery) : List UInt8 := encodeHeader m.header ++ m.body

/-! ## One question -/

/-- The entry holds the octets of the name, the type and the class, and they were copied into
their block. -/
structure Asked.HeldBy (q : Asked) (e : DNSSection) : Prop where
  inside : ∀ c ∈ e.copies, c.1+c.2.1 ≤ c.2.2
  length : e.nameLength = (wireLabels q.qname).length
  name : e.usNAME.take e.nameLength = wireLabels q.qname
  qtype : e.usTYPE = q.qtype
  qclass : e.usCLASS = q.qclass

/-- From `p` on the memory holds the name, and also type and class. Only the first label has room
in the block, and a name without labels leaves the length of the entry as it was. -/
structure Asked.Stands (q : Asked) (buffer : Mem) (p nameLength : ℕ) : Prop where
  single : q.qname.length ≤ 1
  name : Holds buffer p (wire q.qname)
  fields : Holds buffer p q.fields
  root : q.qname = [] → nameLength = 0

theorem fields_iff (q : Asked) (buffer : Mem) (p : ℕ) :
    Holds buffer p q.fields ↔ get16At buffer p = q.qtype ∧ get16At buffer (p+2) = q.qclass := by
  rw [Asked.fields, holds_append, length_put16]
  constructor
  · exact fun h => ⟨get16At_holds _ _ _ h.1, get16At_holds _ _ _ h.2⟩
  · rintro ⟨h1, h2⟩
    rw [← h1, ← h2]
    exact ⟨holds_get16At _ _, holds_get16At _ _⟩

def entryOf (buffer : Mem) (p : ℕ) (s : QnameState) : DNSSection :=
  ⟨s.binaryName, get16At buffer p, get16At buffer (p+2), s.nameLength, s.copies⟩

theorem stands_of_held (q : Asked) (hv : ∀ l ∈ q.qname, ValidLabel l) (buffer : Mem)
    (fuel p nameLength : ℕ) (s : QnameState) (hs : decodeQname buffer fuel p nameLength = some s)
    (h : q.HeldBy (entryOf buffer p s)) : q.Stands buffer p nameLength := by
  obtain ⟨ls, hls, hh, hn⟩ := qnameLoop_name buffer fuel _ s hs
  have hname := hn.name
  have hlen := hn.length
  simp only [List.nil_append] at hname
  have he : ls = q.qname := by
    have hx := h.name
    have hy := h.length
    simp only [entryOf] at hx hy
    apply wireLabels_injective ls q.qname (fun l hl => Nat.lt_of_le_of_lt (hls l hl).le (by omega))
      (fun l hl => Nat.lt_of_le_of_lt (hv l hl).le (by omega))
    by_cases hnil : ls = []
    · rw [hname, hnil] at hx
      rw [← hx, hnil]
      simp
    · rw [if_neg hnil] at hlen
      rwa [hlen, List.take_length, hname] at hx
  have hcopies := qnameLoop_copies buffer ls hls fuel _ s hh hs
  simp only [List.nil_append, List.length_nil] at hcopies
  have hsingle : ls.length ≤ 1 := by
    rw [← copies_inside buffer p ls hls hh, ← hcopies]
    exact h.inside
  refine ⟨he ▸ hsingle, he ▸ hh, (fields_iff q buffer p).mpr ⟨h.qtype, h.qclass⟩, fun hr => ?_⟩
  have hx := h.length
  rw [he, if_pos hr] at hlen
  rw [hr] at hx
  exact hlen.symm.trans hx

theorem held_of_stands (q : Asked) (hv : ∀ l ∈ q.qname, ValidLabel l) (buffer : Mem)
    (fuel p nameLength : ℕ) (hf : q.qname.length < fuel) (h : q.Stands buffer p nameLength) :
    ∃ s, decodeQname buffer fuel p nameLength = some s ∧ q.HeldBy (entryOf buffer p s) := by
  obtain ⟨s, hs, hn⟩ := qnameLoop_wire buffer q.qname hv fuel hf
    ⟨p, [], [], nameLength, (buffer p).toNat+1, []⟩ h.name
  obtain ⟨ht, hc⟩ := (fields_iff q buffer p).mp h.fields
  have hname := hn.name
  have hlen : s.nameLength = (wireLabels q.qname).length := by
    rw [hn.length, hname]
    by_cases hr : q.qname = []
    · simp [hr, h.root hr]
    · simp [hr]
  have hcopies := qnameLoop_copies buffer q.qname hv fuel _ s h.name hs
  simp only [List.nil_append, List.length_nil] at hcopies
  refine ⟨s, hs, ?_, hlen, ?_, ht, hc⟩
  · have hinside := (copies_inside buffer p q.qname hv h.name).mpr h.single
    rwa [← hcopies] at hinside
  · simp only [entryOf, hlen, hname, List.nil_append, List.take_length]

/-! ## All questions -/

theorem sections_stand (qs : List Asked) (hv : ∀ q ∈ qs, ∀ l ∈ q.qname, ValidLabel l)
    (buffer : Mem) (fuel : ℕ) (fresh : ℕ → ℕ) (p : ℕ) (qName : List UInt8)
    (r : List DNSSection × ℕ × List UInt8)
    (h : decodeSections buffer fuel fresh qs.length p qName = some r)
    (hh : List.Forall₂ Asked.HeldBy qs r.1) :
    ∀ (i : ℕ) (q : Asked), qs[i]? = some q → q.Stands buffer (p+4*i) (fresh i) := by
  induction qs generalizing fresh p qName r with
  | nil => simp
  | cons q qs ih =>
    simp only [List.length_cons, decodeSections, Option.bind_eq_bind, Option.bind_eq_some_iff,
      Option.pure_def, Option.some.injEq] at h
    obtain ⟨s, hs, r', hr', rfl⟩ := h
    obtain ⟨h1, h2⟩ := List.forall₂_cons.mp hh
    intro i k hk
    cases i with
    | zero =>
      rw [List.getElem?_cons_zero, Option.some.injEq] at hk
      exact hk ▸ stands_of_held q (hv q (by simp)) buffer fuel p (fresh 0) s hs h1
    | succ i =>
      have hq := ih (fun k hk => hv k (by simp [hk])) _ (p+4) _ r' hr' h2 i k hk
      rwa [Nat.add_assoc, Nat.add_comm 4, ← Nat.mul_succ] at hq

theorem stand_sections (qs : List Asked) (hv : ∀ q ∈ qs, ∀ l ∈ q.qname, ValidLabel l)
    (buffer : Mem) (fuel : ℕ) (hf : ∀ q ∈ qs, q.qname.length < fuel) (fresh : ℕ → ℕ) (p : ℕ)
    (qName : List UInt8)
    (h : ∀ (i : ℕ) (q : Asked), qs[i]? = some q → q.Stands buffer (p+4*i) (fresh i)) :
    ∃ r, decodeSections buffer fuel fresh qs.length p qName = some r ∧
      List.Forall₂ Asked.HeldBy qs r.1 := by
  induction qs generalizing fresh p qName with
  | nil => exact ⟨_, rfl, .nil⟩
  | cons q qs ih =>
    obtain ⟨s, hs, hq⟩ := held_of_stands q (hv q (by simp)) buffer fuel p (fresh 0) (hf q (by simp))
      (h 0 q rfl)
    have htail : ∀ (i : ℕ) (k : Asked), qs[i]? = some k → k.Stands buffer (p+4+4*i) (fresh (i+1)) := by
      intro i k hk
      have := h (i+1) k hk
      rwa [Nat.mul_succ, Nat.add_comm (4*i), ← Nat.add_assoc] at this
    obtain ⟨r, hr, hall⟩ := ih (fun k hk => hv k (by simp [hk])) (fun k hk => hf k (by simp [hk]))
      (fun i => fresh (i+1)) (p+4) s.m_qName htail
    refine ⟨(entryOf buffer p s::r.1, r.2.1, r.2.2), ?_, .cons hq hall⟩
    simp only [List.length_cons, decodeSections, hs, hr, Option.bind_eq_bind, Option.bind_some]
    rfl

/-! ## The whole query -/

/-- What the encoding has put in is what has come out. -/
structure EncodedQuery.Undone (m : EncodedQuery) (q : Query) : Prop where
  header : q.usHeader = m.header
  flags : q.usDNSFlags = rfcFlags m.flags
  questions : List.Forall₂ Asked.HeldBy m.questions q.usQuestionSection

/-- Four octets further on for each question, the questions stand there once more, and their
names have no second label. -/
def EncodedQuery.Overlaps (m : EncodedQuery) (fresh : ℕ → ℕ) : Prop :=
  ∀ (i : ℕ) (q : Asked), m.questions[i]? = some q → q.qname.length ≤ 1 ∧
    wire q.qname <+: m.body.drop (4*i) ∧ q.fields <+: m.body.drop (4*i) ∧ (q.qname = [] → fresh i = 0)

theorem length_encodeHeader (h : DNSHeader) : (encodeHeader h).length = 12 := rfl

theorem decodeHdr_encode (h : DNSHeader) (body : List UInt8) (behind : Mem) :
    decodeHdr (load (encodeHeader h ++ body) behind) = h := by
  simp only [decodeHdr, get16At, load, encodeHeader, put16, List.cons_append, List.nil_append,
    List.getD_cons_zero, List.getD_cons_succ, get16_put16]

theorem decode_eq (m : EncodedQuery) (behind : Mem) (fuel : ℕ) (fresh freshAnswers : ℕ → ℕ)
    (qName : List UInt8) :
    decode (load m.datagram behind) fuel fresh freshAnswers qName =
      (decodeSections (load m.datagram behind) fuel fresh m.questions.length hdrOffset qName).map
        fun r => ⟨m.header, decodeFlags m.flags, r.1, [], r.2.2⟩ := by
  have hn : m.header.usQDCOUNT.toNat = m.questions.length := by
    have hc := m.count
    simp only [EncodedQuery.header, UInt16.toNat_ofNat']
    omega
  have ha : m.header.usANCOUNT.toNat = 0 := rfl
  have hh : decodeHdr (load m.datagram behind) = m.header := decodeHdr_encode _ _ _
  simp only [decode, hh, hn, ha, decodeSections, Option.bind_eq_bind, Option.bind_some]
  cases decodeSections (load m.datagram behind) fuel fresh m.questions.length hdrOffset qName <;> rfl

theorem encode_fits (qs : List Asked) (i : ℕ) (q : Asked) (h : qs[i]? = some q) :
    4*i+q.encode.length ≤ (qs.flatMap Asked.encode).length := by
  induction qs generalizing i with
  | nil => simp at h
  | cons k qs ih =>
    have hk : 4 ≤ k.encode.length := by
      simp [Asked.encode, Asked.fields]
    rw [List.flatMap_cons, List.length_append]
    cases i with
    | zero =>
      rw [List.getElem?_cons_zero, Option.some.injEq] at h
      rw [h]
      omega
    | succ i =>
      have := ih i h
      omega

theorem stands_iff (m : EncodedQuery) (behind : Mem) (i : ℕ) (q : Asked) (nameLength : ℕ)
    (h : m.questions[i]? = some q) :
    q.Stands (load m.datagram behind) (hdrOffset+4*i) nameLength ↔ q.qname.length ≤ 1 ∧
      wire q.qname <+: m.body.drop (4*i) ∧ q.fields <+: m.body.drop (4*i) ∧
        (q.qname = [] → nameLength = 0) := by
  have hfits := encode_fits m.questions i q h
  rw [Asked.encode, List.length_append] at hfits
  have hlen : m.datagram.length = 12+m.body.length := by
    rw [EncodedQuery.datagram, List.length_append, length_encodeHeader]
  have hdrop : m.datagram.drop (hdrOffset+4*i) = m.body.drop (4*i) := by
    rw [EncodedQuery.datagram, hdrOffset, ← length_encodeHeader m.header, List.drop_append]
    simp
  have hw := holds_load m.datagram behind (hdrOffset+4*i) (wire q.qname)
    (by simp only [hdrOffset, hlen, EncodedQuery.body]; omega)
  have hq := holds_load m.datagram behind (hdrOffset+4*i) q.fields
    (by simp only [hdrOffset, hlen, EncodedQuery.body]; omega)
  rw [hdrop] at hw hq
  rw [← hw, ← hq]
  exact ⟨fun hs => ⟨hs.single, hs.name, hs.fields, hs.root⟩,
    fun hs => ⟨hs.1, hs.2.1, hs.2.2.1, hs.2.2.2⟩⟩

theorem exists_fuel (qs : List Asked) : ∃ fuel, ∀ q ∈ qs, q.qname.length < fuel := by
  induction qs with
  | nil => exact ⟨0, by simp⟩
  | cons q qs ih =>
    obtain ⟨fuel, hf⟩ := ih
    refine ⟨q.qname.length+1+fuel, fun k hk => ?_⟩
    rcases List.mem_cons.mp hk with rfl | hk
    · omega
    · have := hf k hk
      omega

theorem decode_undone_iff (m : EncodedQuery) (behind : Mem) (fresh freshAnswers : ℕ → ℕ)
    (qName : List UInt8) :
    (∃ fuel q, decode (load m.datagram behind) fuel fresh freshAnswers qName = some q ∧ m.Undone q) ↔
      m.flags.toNat < 128 ∧ m.Overlaps fresh := by
  constructor
  · rintro ⟨fuel, q, hq, hu⟩
    rw [decode_eq] at hq
    obtain ⟨r, hr, rfl⟩ := Option.map_eq_some_iff.mp hq
    refine ⟨(flags_right_iff m.flags).mp hu.flags, fun i k hk => ?_⟩
    apply (stands_iff m behind i k _ hk).mp
    exact sections_stand m.questions m.valid _ fuel fresh hdrOffset qName r hr hu.questions i k hk
  · rintro ⟨hf, ho⟩
    obtain ⟨fuel, hfuel⟩ := exists_fuel m.questions
    obtain ⟨r, hr, hall⟩ := stand_sections m.questions m.valid (load m.datagram behind) fuel hfuel
      fresh hdrOffset qName fun i k hk => (stands_iff m behind i k _ hk).mpr (ho i k hk)
    have hu : m.Undone ⟨m.header, decodeFlags m.flags, r.1, [], r.2.2⟩ :=
      ⟨rfl, (flags_right_iff m.flags).mpr hf, hall⟩
    exact ⟨fuel, _, by rw [decode_eq, hr]; rfl, hu⟩

/-- One label, and its octets once more as the type and the front of the class. -/
def overlappingQuery : EncodedQuery where
  id := 7
  flags := 0
  nscount := 0
  arcount := 0
  questions := [⟨[[0x61]], 0x0161, 1⟩]
  valid := by
    simp only [List.mem_singleton, forall_eq]
    exact ⟨by decide, by decide⟩
  count := by decide

theorem overlapping_query_undone :
    ∃ fuel q, decode (load overlappingQuery.datagram fun _ => 0) fuel (fun _ => 0) (fun _ => 0) [] = some q ∧
      overlappingQuery.Undone q := by
  apply (decode_undone_iff overlappingQuery _ _ _ _).mpr
  refine ⟨by decide, fun i q hq => ?_⟩
  cases i with
  | zero =>
    obtain rfl := Option.some.inj hq
    exact ⟨by decide, by decide, by decide, by decide⟩
  | succ i => cases hq

def plainQuery : EncodedQuery where
  id := 7
  flags := 0x0100
  nscount := 0
  arcount := 0
  questions := [⟨[[0x61, 0x62]], 1, 1⟩]
  valid := by
    simp only [List.mem_singleton, forall_eq]
    exact ⟨by decide, by decide⟩
  count := by decide

theorem plain_query_not_undone :
    ¬ ∃ fuel q, decode (load plainQuery.datagram fun _ => 0) fuel (fun _ => 0) (fun _ => 0) [] = some q ∧
      plainQuery.Undone q := by
  rintro ⟨fuel, q, hq, hu⟩
  rw [decode_eq] at hq
  obtain ⟨r, -, rfl⟩ := Option.map_eq_some_iff.mp hq
  exact absurd ((flags_right_iff plainQuery.flags).mp hu.flags) (by decide)

end FasterConfig.DnsQuestions
