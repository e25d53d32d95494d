import FasterConfig.DomainName
import FasterConfig.Octets

/-!
# Messages of the domain name protocol

Names with an optional pointer, questions, resource records and messages,
each with an encoder and a parser that takes it off the front of the octets.
The record parser cuts the record data by its length field; the layout of
the data is read separately for the types that put names into it.
-/

set_option autoImplicit false

namespace FasterConfig.Rfc1035
open FasterConfig.DomainName FasterConfig.Octets

/-! ## Names -/

inductive Tail where
  | root
  | pointer (off : ℕ)
  deriving DecidableEq, Repr

structure Name where
  labels : List Label
  tail : Tail
  deriving DecidableEq, Repr

def Tail.encode : Tail → List UInt8
  | .root => [0]
  | .pointer off => [UInt8.ofNat (192+off/256), UInt8.ofNat off]

def Name.encode (n : Name) : List UInt8 := wireLabels n.labels ++ n.tail.encode

def Tail.Valid : Tail → Prop
  | .root => True
  | .pointer off => off < 16384

structure Name.Valid (n : Name) : Prop where
  labels : ∀ l ∈ n.labels, ValidLabel l
  tail : n.tail.Valid

def parsePointer (hi : UInt8) : List UInt8 → Option (Name × List UInt8)
  | [] => none
  | lo::rest => some (⟨[], .pointer ((hi.toNat-192)*256+lo.toNat)⟩, rest)

def parseName : List UInt8 → Option (Name × List UInt8)
  | [] => none
  | n::bs =>
    if n = 0 then some (⟨[], .root⟩, bs)
    else if n.toNat < 64 then
      if bs.length < n.toNat then none
      else (parseName (bs.drop n.toNat)).map (fun r => (⟨bs.take n.toNat::r.1.labels, r.1.tail⟩, r.2))
    else if n.toNat < 192 then none
    else parsePointer n bs
termination_by bs => bs.length
decreasing_by simp only [List.length_drop, List.length_cons]; omega

theorem parseName_tail (t : Tail) (ht : t.Valid) (rest : List UInt8) :
    parseName (t.encode ++ rest) = some (⟨[], t⟩, rest) := by
  cases t with
  | root => simp [Tail.encode, parseName]
  | pointer off =>
    simp only [Tail.Valid] at ht
    have h1 : (UInt8.ofNat (192+off/256)).toNat = 192+off/256 := by
      rw [UInt8.toNat_ofNat']
      omega
    have h0 : UInt8.ofNat (192+off/256) ≠ 0 := fun he => by
      have h2 := congrArg UInt8.toNat he
      rw [h1] at h2
      exact absurd h2 (by simp)
    rw [Tail.encode, List.cons_append, parseName]
    simp only [h0, if_false, h1, show ¬ 192+off/256 < 64 by omega, show ¬ 192+off/256 < 192 by omega,
      List.cons_append, List.nil_append, parsePointer, UInt8.toNat_ofNat']
    congr 4
    omega

theorem parseName_encode (n : Name) (h : n.Valid) (rest : List UInt8) :
    parseName (n.encode ++ rest) = some (n, rest) := by
  obtain ⟨ls, t⟩ := n
  obtain ⟨hl, ht⟩ := h
  simp only [Name.encode] at *
  induction ls with
  | nil => exact parseName_tail t ht rest
  | cons l ls ih =>
    have hv := hl l (by simp)
    have hpos := hv.pos
    have hle := hv.le
    have h1 : (UInt8.ofNat l.length).toNat = l.length := by
      rw [UInt8.toNat_ofNat']
      omega
    have h0 : UInt8.ofNat l.length ≠ 0 := fun he => by
      have h2 : l.length = 0 := by rw [← h1, he]; rfl
      omega
    rw [wireLabels_cons, List.cons_append, List.cons_append, List.cons_append, parseName]
    simp only [h0, if_false, h1, show l.length < 64 by omega, if_true, List.append_assoc,
      List.drop_left, List.take_left, List.length_append,
      show ¬ l.length+((wireLabels ls).length+(t.encode.length+rest.length)) < l.length by omega]
    rw [← List.append_assoc, ih fun k hk => hl k (by simp [hk])]
    rfl

/-! ## Fixed fields -/

def parse16 : List UInt8 → Option (UInt16 × List UInt8)
  | hi::lo::bs => some (get16 hi lo, bs)
  | _ => none

@[simp] theorem parse16_put16 (v : UInt16) (rest : List UInt8) :
    parse16 (put16 v ++ rest) = some (v, rest) := by
  rw [put16, List.cons_append, List.cons_append, parse16, get16_put16]
  rfl

def parse32 (bs : List UInt8) : Option (UInt32 × List UInt8) := do
  let (hi, bs) ← parse16 bs
  let (lo, bs) ← parse16 bs
  return (get32 hi lo, bs)

@[simp] theorem parse32_put32 (v : UInt32) (rest : List UInt8) :
    parse32 (put32 v ++ rest) = some (v, rest) := by
  simp [put32, parse32]

/-! ## Questions and records -/

structure Question where
  qname : Name
  qtype : UInt16
  qclass : UInt16
  deriving DecidableEq, Repr

def Question.encode (q : Question) : List UInt8 := q.qname.encode ++ (put16 q.qtype ++ put16 q.qclass)

def parseQuestion (bs : List UInt8) : Option (Question × List UInt8) := do
  let (qname, bs) ← parseName bs
  let (qtype, bs) ← parse16 bs
  let (qclass, bs) ← parse16 bs
  return (⟨qname, qtype, qclass⟩, bs)

theorem parseQuestion_encode (q : Question) (h : q.qname.Valid) (rest : List UInt8) :
    parseQuestion (q.encode ++ rest) = some (q, rest) := by
  simp [Question.encode, parseQuestion, parseName_encode _ h]

structure Record where
  owner : Name
  rtype : UInt16
  rclass : UInt16
  ttl : UInt32
  rdata : List UInt8
  deriving DecidableEq, Repr

def Record.encode (r : Record) : List UInt8 :=
  r.owner.encode ++ (put16 r.rtype ++ (put16 r.rclass ++ (put32 r.ttl ++
    (put16 (UInt16.ofNat r.rdata.length) ++ r.rdata))))

structure Record.Valid (r : Record) : Prop where
  owner : r.owner.Valid
  rdata : r.rdata.length < 65536

def parseRecord (bs : List UInt8) : Option (Record × List UInt8) := do
  let (owner, bs) ← parseName bs
  let (rtype, bs) ← parse16 bs
  let (rclass, bs) ← parse16 bs
  let (ttl, bs) ← parse32 bs
  let (rdlength, bs) ← parse16 bs
  if bs.length < rdlength.toNat then none
  else return (⟨owner, rtype, rclass, ttl, bs.take rdlength.toNat⟩, bs.drop rdlength.toNat)

theorem parseRecord_encode (r : Record) (h : r.Valid) (rest : List UInt8) :
    parseRecord (r.encode ++ rest) = some (r, rest) := by
  have hl : (UInt16.ofNat r.rdata.length).toNat = r.rdata.length := by
    have := h.rdata
    rw [UInt16.toNat_ofNat']
    omega
  simp [Record.encode, parseRecord, parseName_encode _ h.owner, hl]

def parseMany {α : Type*} (parse : List UInt8 → Option (α × List UInt8)) :
    ℕ → List UInt8 → Option (List α × List UInt8)
  | 0, bs => some ([], bs)
  | n+1, bs => do
    let (x, bs) ← parse bs
    let (xs, bs) ← parseMany parse n bs
    return (x::xs, bs)

theorem parseMany_encode {α : Type*} (parse : List UInt8 → Option (α × List UInt8))
    (encode : α → List UInt8) (xs : List α)
    (h : ∀ x ∈ xs, ∀ rest, parse (encode x ++ rest) = some (x, rest)) (rest : List UInt8) :
    parseMany parse xs.length (xs.flatMap encode ++ rest) = some (xs, rest) := by
  induction xs with
  | nil => rfl
  | cons x xs ih =>
    rw [List.length_cons, parseMany, List.flatMap_cons, List.append_assoc, h x (by simp)]
    simp [ih fun y hy => h y (by simp [hy])]

/-! ## Messages -/

structure Message where
  id : UInt16
  flags : UInt16
  questions : List Question
  answers : List Record
  authority : List Record
  additional : List Record
  deriving DecidableEq, Repr

def Message.records (m : Message) : List Record := m.answers ++ (m.authority ++ m.additional)

def Message.encode (m : Message) : List UInt8 :=
  put16 m.id ++ (put16 m.flags ++ (put16 (UInt16.ofNat m.questions.length) ++
    (put16 (UInt16.ofNat m.answers.length) ++ (put16 (UInt16.ofNat m.authority.length) ++
      (put16 (UInt16.ofNat m.additional.length) ++ (m.questions.flatMap Question.encode ++
        (m.answers.flatMap Record.encode ++ (m.authority.flatMap Record.encode ++
          m.additional.flatMap Record.encode))))))))

structure Message.Valid (m : Message) : Prop where
  questions : ∀ q ∈ m.questions, q.qname.Valid
  records : ∀ r ∈ m.records, r.Valid
  qdcount : m.questions.length < 65536
  ancount : m.answers.length < 65536
  nscount : m.authority.length < 65536
  arcount : m.additional.length < 65536

def parseMessage (bs : List UInt8) : Option (Message × List UInt8) := do
  let (id, bs) ← parse16 bs
  let (flags, bs) ← parse16 bs
  let (qdcount, bs) ← parse16 bs
  let (ancount, bs) ← parse16 bs
  let (nscount, bs) ← parse16 bs
  let (arcount, bs) ← parse16 bs
  let (questions, bs) ← parseMany parseQuestion qdcount.toNat bs
  let (answers, bs) ← parseMany parseRecord ancount.toNat bs
  let (authority, bs) ← parseMany parseRecord nscount.toNat bs
  let (additional, bs) ← parseMany parseRecord arcount.toNat bs
  return (⟨id, flags, questions, answers, authority, additional⟩, bs)

theorem toNat_ofNat_length {α : Type*} (xs : List α) (h : xs.length < 65536) :
    (UInt16.ofNat xs.length).toNat = xs.length := by
  rw [UInt16.toNat_ofNat']
  omega

theorem parsed {α β : Type} {parse : List UInt8 → Option (α × List UInt8)} {bs : List UInt8}
    {x : α × List UInt8} {f : α × List UInt8 → Option β} {y : Option β} (h : parse bs = some x)
    (hf : f x = y) : (parse bs >>= f) = y := by
  rw [h]
  exact hf

theorem parseMany_records (rs : List Record) (h : ∀ r ∈ rs, r.Valid) (hl : rs.length < 65536)
    (rest : List UInt8) :
    parseMany parseRecord (UInt16.ofNat rs.length).toNat (rs.flatMap Record.encode ++ rest) =
      some (rs, rest) := by
  rw [toNat_ofNat_length rs hl]
  exact parseMany_encode parseRecord Record.encode rs (fun r hr => parseRecord_encode r (h r hr)) rest

theorem parseMany_questions (qs : List Question) (h : ∀ q ∈ qs, q.qname.Valid)
    (hl : qs.length < 65536) (rest : List UInt8) :
    parseMany parseQuestion (UInt16.ofNat qs.length).toNat (qs.flatMap Question.encode ++ rest) =
      some (qs, rest) := by
  rw [toNat_ofNat_length qs hl]
  exact parseMany_encode parseQuestion Question.encode qs (fun q hq => parseQuestion_encode q (h q hq))
    rest

theorem parseMessage_encode (m : Message) (h : m.Valid) (rest : List UInt8) :
    parseMessage (m.encode ++ rest) = some (m, rest) := by
  have hanswers : ∀ r ∈ m.answers, r.Valid := fun r hr => h.records r (by simp [Message.records, hr])
  have hauthority : ∀ r ∈ m.authority, r.Valid :=
    fun r hr => h.records r (by simp [Message.records, hr])
  have hadditional : ∀ r ∈ m.additional, r.Valid :=
    fun r hr => h.records r (by simp [Message.records, hr])
  simp only [Message.encode, List.append_assoc]
  apply parsed (parse16_put16 m.id _)
  apply parsed (parse16_put16 m.flags _)
  apply parsed (parse16_put16 (UInt16.ofNat m.questions.length) _)
  apply parsed (parse16_put16 (UInt16.ofNat m.answers.length) _)
  apply parsed (parse16_put16 (UInt16.ofNat m.authority.length) _)
  apply parsed (parse16_put16 (UInt16.ofNat m.additional.length) _)
  apply parsed (parseMany_questions m.questions h.questions h.qdcount _)
  apply parsed (parseMany_records m.answers hanswers h.ancount _)
  apply parsed (parseMany_records m.authority hauthority h.nscount _)
  apply parsed (parseMany_records m.additional hadditional h.arcount _)
  rfl

/-! ## Record data -/

def typeA : UInt16 := 1
def typeSoa : UInt16 := 6
def typeMx : UInt16 := 15
def typeSrv : UInt16 := 33

/-- The names in the data of a record, if the data has the layout of its type and nothing
behind it. -/
def rdataNames (rtype : UInt16) (rdata : List UInt8) : Option (List Name) :=
  if rtype = typeA then if rdata.length = 4 then some [] else none
  else if rtype = typeMx then
    match parseName (rdata.drop 2) with
    | some (exchange, []) => some [exchange]
    | _ => none
  else if rtype = typeSrv then
    match parseName (rdata.drop 6) with
    | some (target, []) => some [target]
    | _ => none
  else if rtype = typeSoa then
    match parseName rdata with
    | some (mname, bs) => match parseName bs with
      | some (rname, bs) => if bs.length = 20 then some [mname, rname] else none
      | none => none
    | none => none
  else some []

def Name.PointsOnlyTo (off : ℕ) (n : Name) : Prop := ∀ o, n.tail = .pointer o → o = off

/-- The data fills its length with the layout of the type, and every pointer in owner and
data goes to `off`. -/
def Record.Sound (off : ℕ) (r : Record) : Prop :=
  ∃ ns, rdataNames r.rtype r.rdata = some ns ∧ ∀ n ∈ r.owner::ns, n.PointsOnlyTo off

end FasterConfig.Rfc1035
