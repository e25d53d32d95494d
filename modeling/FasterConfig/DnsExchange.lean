import FasterConfig.DnsAgree
import FasterConfig.DnsLists
import FasterConfig.DnsResponse
import FasterConfig.DnsSession

/-!
# The client and the response coder

The coder sets the flag that the client looks for. A client whose queries go
through the decoder, the resolver and the coder gets one address from each of
its lookups, the same for every name, whatever else comes in. The decoder asks
for a block for the first label only, so the heap must have given it room for
all of the name.
-/

set_option autoImplicit false

namespace FasterConfig.DnsExchange
open FasterConfig.Octets FasterConfig.DomainName FasterConfig.Memory FasterConfig.Strings
open FasterConfig.DnsQuery FasterConfig.DnsQuestions FasterConfig.DnsRequest FasterConfig.DotStr
open FasterConfig.DnsWellFormed (hostLabels hostLabels_valid)
open FasterConfig.DnsResponse FasterConfig.DnsReceive FasterConfig.DnsLists FasterConfig.DnsSession

/-- The client's text and the decoder's show the same labels, as no dot or NUL is part of one. -/
structure Name where
  labels : List Label
  nonempty : labels ≠ []
  valid : ∀ l ∈ labels, ValidLabel l
  dotless : ∀ l ∈ labels, 0x2e ∉ l
  nulless : ∀ l ∈ labels, 0 ∉ l
  short : (joined labels).length ≤ 127

/-- What the decoder and the coder find in memory; `usable` is how many octets of a block can be
written when so many have been asked for. -/
structure Coder where
  behind : Mem
  fresh : ℕ → ℕ
  freshAnswers : ℕ → ℕ
  qName : List UInt8
  response : DnsResponse.Response
  mem : Mem
  bufferBegin : ℕ
  usable : ℕ → ℕ

def Coder.Inside (c : Coder) (copies : List (ℕ × ℕ × ℕ)) : Prop :=
  ∀ m ∈ copies, m.1+m.2.1 ≤ c.usable m.2.2

instance (c : Coder) : DecidablePred c.Inside := fun copies =>
  inferInstanceAs (Decidable (∀ m ∈ copies, m.1+m.2.1 ≤ c.usable m.2.2))

/-- The octets that the coder leaves for a datagram, unless the decoder has overrun a block. -/
def Coder.answer (c : Coder) (fuel : ℕ) (datagram : List UInt8) : Option (List UInt8) := do
  let q ← decode (load datagram c.behind) fuel c.fresh c.freshAnswers c.qName
  if ∀ e ∈ q.usQuestionSection ++ q.usAnswerSection, c.Inside e.copies then
    let r := code (process q c.response) c.mem c.bufferBegin
    return slice r.1 c.bufferBegin r.2
  else none

def given : List UInt8 := [172, 31, 255, 240]

def recordFields : List UInt8 := put16 1 ++ (put16 1 ++ (put32 0 ++ put16 4))

namespace Name
variable (n : Name)

/-! ## The query and its answer -/

def query (id : UInt16) : AddressQuery where
  id := id
  flags := 0x0100
  nscount := 0
  arcount := 0
  qname := n.labels
  nonempty := n.nonempty
  valid := n.valid
  dotless := n.dotless

theorem request_sent (id : UInt16) (heap : Mem) (behind : ℕ) :
    ∃ extent, sendDNSRequest id (joined n.labels) heap behind = .sent ((n.query id).datagram []) extent := by
  have hshort := n.short
  have hlen := length_joined n.labels n.nonempty
  have hn : ∀ l ∈ n.labels, l ≠ [] := fun l hl => List.length_pos_iff.mp (n.valid l hl).pos
  have ht : strtok 0x2e (joined n.labels) = n.labels :=
    strtok_joined n.labels fun l hl => ⟨hn l hl, n.dotless l hl⟩
  obtain ⟨r, hr⟩ := encodeDotStr_labels (joined n.labels)
    (slice heap 0 (ushort (joined n.labels).length+2+behind)) (by omega) (by rw [ht]; exact n.nonempty)
  rw [ht] at hr
  have hc := cString_wireLabels n.labels n.nulless r
  rw [DnsAgree.counted_valid n.labels n.valid] at hc
  rw [sent_eq id _ _ _ _ hr (by rw [hc]; omega), hc]
  refine ⟨_, congrArg₂ _ ?_ rfl⟩
  rw [AddressQuery.datagram, AddressQuery.question, List.append_nil]
  rfl

theorem answered (id : UInt16) (c : Coder) (fuel : ℕ) (hf : n.labels.length < fuel)
    (hin : c.Inside (n.query id).copies) :
    c.answer fuel ((n.query id).datagram []) = some (n.query id).reply := by
  obtain ⟨q, hq, hid, hname, hcopies⟩ := decode_address (n.query id) [] c.behind c.fresh c.freshAnswers
    c.qName fuel hf
  have hinside : ∀ e ∈ q.usQuestionSection ++ q.usAnswerSection, c.Inside e.copies := by
    intro e he
    rw [hcopies e he]
    exact hin
  have hcode := code_address (n.query id) (process q c.response) c.mem c.bufferBegin hid hname
  simp only [Coder.answer, hq, Option.bind_eq_bind, Option.bind_some, if_pos hinside, hcode]
  exact congrArg some (holds_store _ _ _)

/-! ## The answer as the client reads it -/

theorem question_held (id : UInt16) : (n.query id).reply.drop 12 = wire n.labels ++ ((put16 1 ++ put16 1) ++
    (put16 0xc00c ++ (recordFields ++ given))) := by
  rw [AddressQuery.reply, AddressQuery.question, List.append_assoc]
  exact List.drop_left' (length_encodeHeader _)

theorem record_held (id : UInt16) :
    (n.query id).reply.drop (12+((wire n.labels).length+4)) = put16 0xc00c ++ (recordFields ++ given) := by
  rw [← List.drop_drop, n.question_held, ← List.drop_drop, List.drop_left]
  rfl

theorem name_held (marks : ℕ → Prop) (id : UInt16) :
    NameAt marks (n.query id).reply 12 n.labels (wire n.labels).length :=
  nameAt_wire marks _ n.labels n.valid 12 (n.question_held id ▸ List.prefix_append _ _)

theorem asked (id : UInt16) : QuestionsAre (n.query id).reply 1 12 (12+((wire n.labels).length+4)) := by
  refine .cons 0 12 _ _ n.labels 1 1 (n.name_held uncompressed id) ⟨n.nonempty, n.short⟩ ?_ (.nil _)
  rw [← List.drop_drop, n.question_held, List.drop_left]
  exact List.prefix_append _ _

theorem answer_follows (id : UInt16) : AnswersAre (n.query id).reply (12+((wire n.labels).length+4))
    [.address given] (12+((wire n.labels).length+4)+16) := by
  have hpointer : [0xc0, 0x0c] <+: (n.query id).reply.drop (12+((wire n.labels).length+4)) := by
    rw [n.record_held]
    exact List.prefix_append (put16 0xc00c) _
  have howner : NameAt compressed (n.query id).reply (12+((wire n.labels).length+4)) n.labels 2 :=
    .pointer _ _ 0xc0 0x0c n.labels hpointer (Nat.le_refl 192) (n.name_held compressed id)
  refine .cons _ 2 _ n.labels dnsTypeA 1 0 4 _ [] howner ⟨n.nonempty, n.short⟩ ?_
    (.address _ given rfl ?_) (.nil _)
  · rw [← List.drop_drop, n.record_held]
    exact List.prefix_append recordFields given
  · rw [← List.drop_drop, ← List.drop_drop, n.record_held]
    exact List.prefix_refl _

theorem reply_size (id : UInt16) : (n.query id).reply.length ≤ recvbufSize := by
  have hlen := length_joined n.labels n.nonempty
  have hshort := n.short
  simp only [AddressQuery.reply, AddressQuery.question, List.length_append, length_encodeHeader,
    length_put16, length_wire, recvbufSize]
  simp only [query, put32, List.length_append, length_put16, List.length_cons, List.length_nil]
  omega

theorem reply_header (id : UInt16) : put16 id ++ (put16 (responseFlags true true) ++ (put16 1 ++ put16 1)) <+:
    (n.query id).reply := by
  rw [AddressQuery.reply]
  exact ⟨put16 0 ++ (put16 0 ++ _), rfl⟩

theorem one_answer : [Data.address given].length < 65536 := Nat.succ_lt_succ (Nat.zero_lt_succ _)

def response (id : UInt16) : DnsLists.Response id where
  datagram := (n.query id).reply
  aa := true
  ra := true
  questions := 1
  answers := [.address given]
  questionsEnd := 12+((wire n.labels).length+4)
  answersEnd := 12+((wire n.labels).length+4)+16
  size := n.reply_size id
  header := n.reply_header id
  count := one_answer
  nonempty := List.cons_ne_nil _ _
  asked := n.asked id
  answered := n.answer_follows id

end Name

/-! ## Lookups over one socket -/

/-- An `unsigned long` has four octets, and both lists are given. -/
def reader (id : UInt16) (fuel : ℕ) (ips : List (List UInt8)) (names : List Text) : Reader :=
  ⟨id, 4, fuel, ⟨some ips, some names⟩⟩

/-- A lookup, what the coder finds when it answers, and what comes in before the answer does. -/
structure Exchange where
  name : Name
  heap : Mem
  behind : ℕ
  dot : Mem
  beyond : Mem
  recvbuf : CArray recvbufSize
  coder : Coder
  early : List (List UInt8)

def Exchange.call (x : Exchange) : Call :=
  ⟨joined x.name.labels, x.heap, x.behind, x.dot, x.beyond, x.recvbuf⟩

def Exchange.arrivals (x : Exchange) (id : UInt16) (fuel : ℕ) : Option (List (List UInt8)) :=
  match sendDNSRequest id x.call.szDomainName x.heap x.behind with
  | .sent packet _ => (x.coder.answer fuel packet).map fun out => x.early ++ [out]
  | _ => none

/-- It announces no answer to the client, and does not end in front of what the client looks at. -/
def Passed (c : Reader) (d : List UInt8) : Prop := c.Inside d ∧ c.announcing d = false

theorem recvQueue_passed (c : Reader) (dot beyond : Mem) (recvbuf : CArray recvbufSize)
    (early ds : List (List UInt8)) (h : ∀ d ∈ early, Passed c d) :
    recvQueue c dot beyond recvbuf (early ++ ds) =
      recvQueue c dot beyond (early.foldl CArray.receive recvbuf) ds := by
  induction early generalizing recvbuf with
  | nil => rfl
  | cons d early ih =>
    obtain ⟨hin, hquiet⟩ := h d List.mem_cons_self
    rw [List.cons_append, recvQueue, c.parse_alone d hin recvbuf dot beyond,
      (c.alone_ignored_iff dot d).mpr hquiet]
    exact ih _ fun e he => h e (List.mem_cons_of_mem d he)

def constantLists : Lists := ⟨some [given], some []⟩

theorem lookup_answered (id : UInt16) (ips : List (List UInt8)) (names : List Text) (x : Exchange)
    (hin : x.coder.Inside (x.name.query id).copies) (h : ∀ d ∈ x.early, Passed (reader id 0 ips names) d) :
    ∃ needed, ∀ fuel, needed ≤ fuel → ∃ arrived, x.arrivals id fuel = some arrived ∧
      ∀ rest, dnsLookupCore (reader id fuel ips names) x.call (arrived ++ rest) =
        some (some constantLists, rest) := by
  obtain ⟨extent, hsent⟩ := x.name.request_sent id x.heap x.behind
  obtain ⟨needed, hparsed⟩ := response_parsed id (x.name.response id)
    (x.early.foldl CArray.receive x.recvbuf) x.dot x.beyond
  refine ⟨max needed (x.name.labels.length+1), fun fuel hf => ?_⟩
  have hcoded := x.name.answered id x.coder fuel (by omega) hin
  refine ⟨x.early ++ [(x.name.query id).reply], ?_, fun rest => ?_⟩
  · rw [Exchange.arrivals, Exchange.call, hsent]
    dsimp only
    rw [hcoded, Option.map_some]
  · have hq : ∀ d ∈ x.early, Passed (reader id fuel ips names) d := h
    have hread : ((reader id fuel ips names).parse (received (x.early.foldl CArray.receive x.recvbuf)
        (x.name.query id).reply x.beyond) x.dot).result =
        some (.accepted constantLists (x.name.response id).answersEnd) := hparsed fuel (by omega)
    rw [dnsLookupCore, show sendDNSRequest (reader id fuel ips names).id x.call.szDomainName
      x.call.heap x.call.behind = _ from hsent]
    dsimp only
    rw [List.append_assoc, Exchange.call, recvQueue_passed _ _ _ _ _ _ hq, List.singleton_append, recvQueue, hread]
    rfl

/-- Where the names have room, every lookup gets the address of the coder, and the next one finds
the rest of the queue. -/
theorem exchanges_answered (id : UInt16) (ips : List (List UInt8)) (names : List Text)
    (xs : List Exchange) (hin : ∀ x ∈ xs, x.coder.Inside (x.name.query id).copies)
    (h : ∀ x ∈ xs, ∀ d ∈ x.early, Passed (reader id 0 ips names) d) :
    ∃ needed, ∀ fuel, needed ≤ fuel → ∃ arrived, xs.mapM (fun x => x.arrivals id fuel) = some arrived ∧
      lookups (reader id fuel ips names) (xs.map Exchange.call) arrived.flatten =
        some (xs.map fun _ => some constantLists) := by
  induction xs with
  | nil => exact ⟨0, fun fuel _ => ⟨[], rfl, rfl⟩⟩
  | cons x xs ih =>
    obtain ⟨needed, hx⟩ := lookup_answered id ips names x (hin x List.mem_cons_self) (h x List.mem_cons_self)
    obtain ⟨needed', hxs⟩ := ih (fun y hy => hin y (List.mem_cons_of_mem x hy))
      fun y hy => h y (List.mem_cons_of_mem x hy)
    refine ⟨max needed needed', fun fuel hf => ?_⟩
    obtain ⟨first, harrived, hfirst⟩ := hx fuel (by omega)
    obtain ⟨later, hlater, hrest⟩ := hxs fuel (by omega)
    refine ⟨first::later, ?_, ?_⟩
    · rw [List.mapM_cons, harrived, hlater]
      rfl
    · rw [List.map_cons, lookups, List.flatten_cons, hfirst, List.map_cons]
      simp only [Option.bind_eq_bind, Option.bind_some, hrest]
      rfl

/-! ## One name asked for twice -/

theorem hostLabels_plain : (∀ l ∈ hostLabels, 0x2e ∉ l) ∧ (∀ l ∈ hostLabels, 0 ∉ l) ∧
    (joined hostLabels).length ≤ 127 := by decide

def seeedName : Name where
  labels := hostLabels
  nonempty := List.cons_ne_nil _ _
  valid := hostLabels_valid.labels
  dotless := hostLabels_plain.1
  nulless := hostLabels_plain.2.1
  short := hostLabels_plain.2.2

/-- A datagram from somebody else comes in first, and a block has at least 24 octets. -/
def seeedExchange : Exchange where
  name := seeedName
  heap := fun _ => 0
  behind := 0
  dot := fun _ => 0
  beyond := fun _ => 0
  recvbuf := CArray.zero recvbufSize
  coder := ⟨fun _ => 0, fun _ => 0, fun _ => 0, [], ⟨⟨0, 0, 0, 0, 0, 0⟩, []⟩, fun _ => 0, 0, max 24⟩
  early := [stranger]

theorem stranger_passed : Passed (reader 7 0 [] []) stranger := ⟨stranger_inside, by decide⟩

theorem seeed_room : seeedExchange.coder.Inside (seeedExchange.name.query 7).copies := by decide

theorem seeed_answered : ∃ needed, ∀ fuel, needed ≤ fuel → ∃ arrived,
    [seeedExchange, seeedExchange].mapM (fun x => x.arrivals 7 fuel) = some arrived ∧
      lookups (reader 7 fuel [] []) [seeedExchange.call, seeedExchange.call] arrived.flatten =
        some [some constantLists, some constantLists] := by
  have hpassed : ∀ x ∈ [seeedExchange, seeedExchange], ∀ d ∈ x.early, Passed (reader 7 0 [] []) d := by
    simp only [List.mem_cons, List.not_mem_nil, or_false, or_self, forall_eq]
    intro d hd
    obtain rfl := List.mem_singleton.mp hd
    exact stranger_passed
  have hroom : ∀ x ∈ [seeedExchange, seeedExchange], x.coder.Inside (x.name.query 7).copies := by
    simp only [List.mem_cons, List.not_mem_nil, or_false, or_self, forall_eq]
    exact seeed_room
  exact exchanges_answered 7 [] [] [seeedExchange, seeedExchange] hroom hpassed

end FasterConfig.DnsExchange
