import FasterConfig.DnsReceive

/-!
# The lists the client returns

On a response whose sections are all there the loops end, the question and
answer names are skipped, and addresses and canonical names are appended in
message order. A canonical name is appended as a C string.
-/

set_option autoImplicit false

namespace FasterConfig.DnsLists
open FasterConfig.Octets FasterConfig.DomainName FasterConfig.Memory FasterConfig.Strings
open FasterConfig.DnsQuery FasterConfig.DnsRequest FasterConfig.Traced FasterConfig.DotStr
open FasterConfig.DnsReceive

/-! ## Responses -/

def compressed (c : ℕ) : Prop := 192 ≤ c

def uncompressed (_ : ℕ) : Prop := False

/-- Written with dots the name has 1 to 127 characters. -/
def Shown (ls : List Label) : Prop := ls ≠ [] ∧ (joined ls).length ≤ 127

inductive Data where
  | address (octets : List UInt8)
  | cname (target : List Label)
  | other
  deriving DecidableEq, Repr

def addresses : List Data → List (List UInt8)
  | [] => []
  | .address octets::xs => octets::addresses xs
  | _::xs => addresses xs

def targets : List Data → List (List Label)
  | [] => []
  | .cname target::xs => target::targets xs
  | _::xs => targets xs

theorem addresses_cons (x : Data) (xs : List Data) :
    addresses (x::xs) = addresses [x] ++ addresses xs := by
  cases x <;> rfl

theorem targets_cons (x : Data) (xs : List Data) : targets (x::xs) = targets [x] ++ targets xs := by
  cases x <;> rfl

inductive DataAt (d : List UInt8) : UInt16 → ℕ → ℕ → Data → Prop where
  | address (pos : ℕ) (octets : List UInt8) (hl : octets.length = 4) (h : octets <+: d.drop pos) :
      DataAt d dnsTypeA pos 4 (.address octets)
  | cname (pos len : ℕ) (target : List Label) (h : NameAt compressed d pos target len)
      (hs : Shown target) : DataAt d dnsTypeCname pos len (.cname target)
  | other (t : UInt16) (pos len : ℕ) (ha : t ≠ dnsTypeA) (hc : t ≠ dnsTypeCname)
      (h : pos+len ≤ d.length) : DataAt d t pos len .other

inductive QuestionsAre (d : List UInt8) : ℕ → ℕ → ℕ → Prop where
  | nil (pos : ℕ) : QuestionsAre d 0 pos pos
  | cons (q pos len e : ℕ) (ls : List Label) (qtype qclass : UInt16)
      (h : NameAt uncompressed d pos ls len) (hs : Shown ls)
      (hf : put16 qtype ++ put16 qclass <+: d.drop (pos+len))
      (rest : QuestionsAre d q (pos+(len+4)) e) : QuestionsAre d (q+1) pos e

inductive AnswersAre (d : List UInt8) : ℕ → List Data → ℕ → Prop where
  | nil (pos : ℕ) : AnswersAre d pos [] pos
  | cons (pos len e : ℕ) (owner : List Label) (t cls : UInt16) (ttl : UInt32) (datalen : UInt16)
      (x : Data) (xs : List Data) (h : NameAt compressed d pos owner len) (hs : Shown owner)
      (hf : put16 t ++ (put16 cls ++ (put32 ttl ++ put16 datalen)) <+: d.drop (pos+len))
      (hx : DataAt d t (pos+len+10) datalen.toNat x)
      (rest : AnswersAre d (pos+len+10+datalen.toNat) xs e) : AnswersAre d pos (x::xs) e

/-- QR and RD are set, AA and RA are free, all other flags and the code are zero. -/
def responseFlags (aa ra : Bool) : UInt16 :=
  0x8100+(if aa then 0x0400 else 0)+(if ra then 0x0080 else 0)

/-- Further sections may stand behind the answers. -/
structure Response (id : UInt16) where
  datagram : List UInt8
  aa : Bool
  ra : Bool
  questions : UInt16
  answers : List Data
  questionsEnd : ℕ
  answersEnd : ℕ
  size : datagram.length ≤ recvbufSize
  header : put16 id ++ (put16 (responseFlags aa ra) ++ (put16 questions ++
    put16 (UInt16.ofNat answers.length))) <+: datagram
  count : answers.length < 65536
  nonempty : answers ≠ []
  asked : QuestionsAre datagram questions.toNat hdrOffset questionsEnd
  answered : AnswersAre datagram questionsEnd answers answersEnd

theorem flags_accepted (aa ra : Bool) : responseFlags aa ra &&& 0xfb7f = 0x8100 := by
  cases aa <;> cases ra <;> decide

/-! ## Reading -/

section Reading
variable (packet : Mem) (d : List UInt8) (hd : Holds packet 0 d)
include hd

theorem name_read (start : Option ℕ) (marks : ℕ → Prop) (hm : ∀ c, marks c → 64 ≤ c ∧ start = some 0)
    (pos len : ℕ) (ls : List Label) (h : NameAt marks d pos ls len) (hs : Shown ls) :
    ∃ needed, ∀ fuel, needed ≤ fuel → ∀ dot,
      (decodeDotStr packet start fuel pos szDotName dotNameSize dot).result =
        some (some ⟨len, ended dot szDotName ls⟩) := by
  obtain ⟨needed, hn⟩ := decodeLoop_name packet d hd start marks hm pos len ls h
  refine ⟨needed, fun fuel hf dot => ?_⟩
  have hlen := length_joined ls hs.1
  have hle := hs.2
  rw [decodeDotStr, hn fuel hf 0 0 szDotName dotNameSize dot (Nat.le_refl _) (Nat.zero_le _),
    if_pos (by simp only [dotNameSize]; omega), Nat.zero_add]
  rfl

theorem questions_read (q pos e : ℕ) (h : QuestionsAre d q pos e) :
    ∃ needed, ∀ fuel, needed ≤ fuel → ∀ dot, ∃ dot',
      (questionLoop packet fuel q pos dot).result = some (some (e, dot')) := by
  induction h with
  | nil pos => exact ⟨0, fun fuel _ dot => ⟨dot, rfl⟩⟩
  | cons q pos len e ls qtype qclass h hs hf rest ih =>
    obtain ⟨needed, ih⟩ := ih
    obtain ⟨needed', hn⟩ := name_read packet d hd none uncompressed (fun _ h => h.elim) pos len ls h hs
    refine ⟨max needed needed', fun fuel hfuel dot => ?_⟩
    obtain ⟨dot', hr⟩ := ih fuel (by omega) (ended dot szDotName ls)
    rw [questionLoop]
    exact ⟨dot', (Run.result_andThen_some _ _ _).mpr ⟨_, hn fuel (by omega) dot, hr⟩⟩

theorem data_pushed (t : UInt16) (pos len : ℕ) (x : Data) (h : DataAt d t pos len x) :
    ∃ needed, ∀ fuel, needed ≤ fuel → ∀ ips names dot, ∃ dot',
      (pushAnswer packet 4 fuel t pos ⟨some ips, some names⟩ dot).result =
        some (some (⟨some (ips ++ addresses [x]),
          some (names ++ (targets [x]).map fun ls => cString (joined ls))⟩, dot')) := by
  cases h with
  | address _ octets hl h =>
    refine ⟨0, fun fuel _ ips names dot => ⟨dot, ?_⟩⟩
    have ho := hd.within pos octets h
    rw [Holds, hl] at ho
    rw [pushAnswer, if_pos ⟨rfl, rfl⟩, Run.result_bind, result_readOctets, ho]
    simp [Lists.pushIP, addresses, targets]
  | cname _ _ target h hs =>
    obtain ⟨needed, hn⟩ := name_read packet d hd (some 0) compressed
      (fun c hc => ⟨Nat.le_trans (by decide) hc, rfl⟩) pos len target h hs
    refine ⟨needed, fun fuel hf ips names dot => ⟨ended dot szDotName target, ?_⟩⟩
    have hc := cString_ended dot szDotName dotNameSize target hs.1 (Nat.lt_succ_of_le hs.2)
    rw [pushAnswer, if_neg fun h => absurd h.1 (by decide), if_pos ⟨rfl, rfl⟩, Run.result_andThen, hn fuel hf dot]
    simp [Lists.pushCName, addresses, targets, hc]
  | other _ _ _ ha hc h =>
    refine ⟨0, fun fuel _ ips names dot => ⟨dot, ?_⟩⟩
    rw [pushAnswer, if_neg fun h => ha h.1, if_neg fun h => hc h.1]
    simp [addresses, targets]

theorem answers_read (pos e : ℕ) (xs : List Data) (h : AnswersAre d pos xs e) :
    ∃ needed, ∀ fuel, needed ≤ fuel → ∀ ips names dot,
      (answerLoop packet 4 fuel xs.length pos ⟨some ips, some names⟩ dot).result =
        some (some (⟨some (ips ++ addresses xs),
          some (names ++ (targets xs).map fun ls => cString (joined ls))⟩, e)) := by
  induction h with
  | nil pos => exact ⟨0, fun fuel _ ips names dot => by simp [answerLoop, addresses, targets]⟩
  | cons pos len e owner t cls ttl datalen x xs h hs hf hx rest ih =>
    obtain ⟨needed, ih⟩ := ih
    obtain ⟨needed', hn⟩ := name_read packet d hd (some 0) compressed
      (fun c hc => ⟨Nat.le_trans (by decide) hc, rfl⟩) pos len owner h hs
    obtain ⟨needed'', hp⟩ := data_pushed packet d hd t _ _ x hx
    refine ⟨max needed (max needed' needed''), fun fuel hfuel ips names dot => ?_⟩
    have hh := hd.within _ _ hf
    rw [holds_append, holds_append, holds_append] at hh
    have ht := get16At_holds _ _ _ hh.1
    have hlen : get16At packet (pos+len+8) = datalen := get16At_holds _ _ _ hh.2.2.2
    obtain ⟨dot', hd'⟩ := hp fuel (by omega) ips names (ended dot szDotName owner)
    rw [← ht] at hd'
    rw [← hlen] at ih
    have hrest := ih fuel (by omega) (ips ++ addresses [x])
      (names ++ (targets [x]).map fun ls => cString (joined ls)) dot'
    rw [List.append_assoc, List.append_assoc, ← List.map_append, ← addresses_cons, ← targets_cons] at hrest
    rw [List.length_cons, answerLoop_some]
    exact ⟨_, hn fuel (by omega) dot, _, hd', hrest⟩

end Reading

theorem response_parsed (id : UInt16) (m : Response id) (recvbuf : CArray recvbufSize)
    (dot beyond : Mem) :
    ∃ needed, ∀ fuel, needed ≤ fuel →
      (parseResponse (received recvbuf m.datagram beyond) 4 fuel id ⟨some [], some []⟩ dot).result =
        some (.accepted ⟨some (addresses m.answers),
          some ((targets m.answers).map fun ls => cString (joined ls))⟩ m.answersEnd) := by
  have hd := holds_received recvbuf m.datagram beyond
  rw [List.take_of_length_le m.size] at hd
  have hh := hd.within 0 _ m.header
  rw [holds_append, holds_append, holds_append] at hh
  have hid := get16At_holds _ _ _ hh.1
  have hfl := get16At_holds _ 2 _ hh.2.1
  have hq := get16At_holds _ 4 _ hh.2.2.1
  have ha := get16At_holds _ 6 _ hh.2.2.2
  have hn : (UInt16.ofNat m.answers.length).toNat = m.answers.length := by
    rw [UInt16.toNat_ofNat']
    exact Nat.mod_eq_of_lt m.count
  have hpos := List.length_pos_iff.mpr m.nonempty
  obtain ⟨needed, hqs⟩ := questions_read _ m.datagram hd _ _ _ m.asked
  obtain ⟨needed', has⟩ := answers_read _ m.datagram hd _ _ _ m.answered
  refine ⟨max needed needed', fun fuel hf => ?_⟩
  obtain ⟨dot', hqr⟩ := hqs fuel (by omega) dot
  have har := has fuel (by omega) [] [] dot'
  simp only [parseResponse, Run.result_bind, result_read16, Option.bind_some, hid, hfl, hq, ha,
    flags_accepted, if_true, hn, hpos, Run.result_andThen, hqr, Option.elim_some, har,
    List.nil_append]
  rfl

/-- A response is read whatever the datagrams ignored before it have left in the arrays. -/
theorem response_read (id : UInt16) (m : Response id) (ips : List (List UInt8)) (names : List Text)
    (dot beyond : Mem) (recvbuf : CArray recvbufSize) (ds : List (List UInt8)) :
    ∃ needed, ∀ fuel, needed ≤ fuel →
      (recvDNSResponse 4 fuel id ⟨some ips, some names⟩ dot beyond recvbuf
        (m.datagram::ds)).result = some (.accepted ⟨some (addresses m.answers),
          some ((targets m.answers).map fun ls => cString (joined ls))⟩ m.answersEnd) := by
  obtain ⟨needed, hn⟩ := response_parsed id m recvbuf dot beyond
  refine ⟨needed, fun fuel hf => ?_⟩
  have hclear : Lists.clear ⟨some ips, some names⟩ = ⟨some [], some []⟩ := rfl
  rw [recvDNSResponse, recvLoop, Run.result_bind, hclear, hn fuel hf]
  rfl

def aliasDatagram : List UInt8 :=
  [0x00, 0x07, 0x81, 0x80, 0x00, 0x01, 0x00, 0x02, 0x00, 0x00, 0x00, 0x00,
    0x01, 0x61, 0x00, 0x00, 0x01, 0x00, 0x01,
    0xc0, 0x0c, 0x00, 0x05, 0x00, 0x01, 0x00, 0x00, 0x00, 0x00, 0x00, 0x03, 0x01, 0x62, 0x00,
    0xc0, 0x1f, 0x00, 0x01, 0x00, 0x01, 0x00, 0x00, 0x00, 0x00, 0x00, 0x04, 0xac, 0x1f, 0x01, 0x02]

theorem alias_shown : Shown [[0x61]] ∧ Shown [[0x62]] := ⟨⟨by decide, by decide⟩, by decide, by decide⟩

theorem alias_names : NameAt uncompressed aliasDatagram 12 [[0x61]] 3 ∧
    NameAt compressed aliasDatagram 19 [[0x61]] 2 ∧ NameAt compressed aliasDatagram 31 [[0x62]] 3 ∧
      NameAt compressed aliasDatagram 34 [[0x62]] 2 := by
  have ha (marks : ℕ → Prop) : NameAt marks aliasDatagram 12 [[0x61]] 3 :=
    .label 12 1 [0x61] [] ⟨by decide, by decide⟩ (by decide) (.root 14 (by decide))
  have hb : NameAt compressed aliasDatagram 31 [[0x62]] 3 :=
    .label 31 1 [0x62] [] ⟨by decide, by decide⟩ (by decide) (.root 33 (by decide))
  exact ⟨ha uncompressed, .pointer 19 3 0xc0 0x0c _ (by decide) (Nat.le_refl 192) (ha compressed), hb,
    .pointer 34 3 0xc0 0x1f _ (by decide) (Nat.le_refl 192) hb⟩

theorem alias_answers :
    AnswersAre aliasDatagram 19 [.cname [[0x62]], .address [0xac, 0x1f, 0x01, 0x02]] 50 := by
  obtain ⟨-, ha, hb, hb'⟩ := alias_names
  exact .cons 19 2 50 [[0x61]] dnsTypeCname 1 0 3 _ _ ha alias_shown.1 (by decide)
    (.cname 31 3 _ hb alias_shown.2)
    (.cons 34 2 50 [[0x62]] dnsTypeA 1 0 4 _ [] hb' alias_shown.2 (by decide)
      (.address 46 _ rfl (by decide)) (.nil 50))

def aliasResponse : Response 7 where
  datagram := aliasDatagram
  aa := false
  ra := true
  questions := 1
  answers := [.cname [[0x62]], .address [0xac, 0x1f, 0x01, 0x02]]
  questionsEnd := 19
  answersEnd := 50
  size := by decide
  header := by decide
  count := by decide
  nonempty := by decide
  asked := .cons 0 12 3 19 [[0x61]] 1 1 alias_names.1 alias_shown.1 (by decide) (.nil 19)
  answered := alias_answers

theorem alias_read : ∃ needed, ∀ fuel, needed ≤ fuel →
    (recvDNSResponse 4 fuel 7 ⟨some [[0x7f, 0, 0, 1]], some []⟩ (fun _ => 0) (fun _ => 0)
      (CArray.zero recvbufSize) [aliasDatagram]).result =
        some (.accepted ⟨some [[0xac, 0x1f, 0x01, 0x02]], some [[0x62]]⟩ 50) :=
  response_read 7 aliasResponse [[0x7f, 0, 0, 1]] [] (fun _ => 0) (fun _ => 0) (CArray.zero recvbufSize) []

/-- One record: a is another name for the single label a, NUL. -/
def nulDatagram : List UInt8 :=
  [0x00, 0x07, 0x81, 0x00, 0x00, 0x00, 0x00, 0x01, 0x00, 0x00, 0x00, 0x00,
    0x01, 0x61, 0x00, 0x00, 0x05, 0x00, 0x01, 0x00, 0x00, 0x00, 0x00, 0x00, 0x04,
    0x02, 0x61, 0x00, 0x00]

theorem nulDatagram_answers : AnswersAre nulDatagram 12 [.cname [[0x61, 0x00]]] 29 := by
  have howner : NameAt compressed nulDatagram 12 [[0x61]] 3 :=
    .label 12 1 [0x61] [] ⟨by decide, by decide⟩ (by decide) (.root 14 (by decide))
  have htarget : NameAt compressed nulDatagram 25 [[0x61, 0x00]] 4 :=
    .label 25 1 [0x61, 0x00] [] ⟨by decide, by decide⟩ (by decide) (.root 28 (by decide))
  exact .cons 12 3 29 [[0x61]] dnsTypeCname 1 0 4 _ [] howner ⟨by decide, by decide⟩ (by decide)
    (.cname 25 4 _ htarget ⟨by decide, by decide⟩) (.nil 29)

def nulResponse : Response 7 where
  datagram := nulDatagram
  aa := false
  ra := false
  questions := 0
  answers := [.cname [[0x61, 0x00]]]
  questionsEnd := 12
  answersEnd := 29
  size := by decide
  header := by decide
  count := by decide
  nonempty := by decide
  asked := .nil 12
  answered := nulDatagram_answers

theorem nul_target_cut :
    ¬ ∃ needed, ∀ fuel, needed ≤ fuel →
      (recvDNSResponse 4 fuel 7 ⟨some [], some []⟩ (fun _ => 0) (fun _ => 0) (CArray.zero recvbufSize)
        [nulResponse.datagram]).result = some (.accepted ⟨some (addresses nulResponse.answers),
          some ((targets nulResponse.answers).map joined)⟩ nulResponse.answersEnd) := by
  rintro ⟨needed, h⟩
  obtain ⟨needed', h'⟩ := response_parsed 7 nulResponse (CArray.zero recvbufSize) (fun _ => 0) fun _ => 0
  have hclear : Lists.clear ⟨some [], some []⟩ = ⟨some [], some []⟩ := rfl
  have hl := h (max needed needed') (Nat.le_max_left _ _)
  rw [recvDNSResponse, recvLoop, Run.result_bind, hclear, h' _ (Nat.le_max_right _ _)] at hl
  simp only [Option.bind_some, Run.result_pure, Option.some.injEq, Received.accepted.injEq,
    Lists.mk.injEq] at hl
  exact absurd hl.1.2 (by decide)

end FasterConfig.DnsLists
