import FasterConfig.DnsContained
import FasterConfig.Footprint

/-!
# Lookups one after the other

All lookups of a client wait on one socket with one ID, and what comes in is
compared with neither the name that was asked nor the server that was asked.
As long as no datagram leads outside of itself, each lookup is decided by the
next datagram with a header that announces answers, read by itself.
-/

set_option autoImplicit false

namespace FasterConfig.DnsSession
open FasterConfig.Octets FasterConfig.Memory FasterConfig.Strings FasterConfig.Traced
open FasterConfig.Footprint FasterConfig.DotStr FasterConfig.DnsQuery FasterConfig.DnsRequest
open FasterConfig.DnsReceive FasterConfig.DnsContained

/-! ## What the parser reads decides -/

section
variable {n : ℕ} {mem mem' : Mem} (h : Same n mem mem')
include h

theorem local_decodeLoop (start : Option ℕ) (fuel pos plain len szDotStr room : ℕ) (dot : Mem) :
    Local n (decodeLoop mem start fuel pos plain len szDotStr room dot)
      (decodeLoop mem' start fuel pos plain len szDotStr room dot) := by
  induction fuel generalizing pos plain len szDotStr room dot with
  | zero => exact local_refl n _
  | succ fuel ih =>
    unfold decodeLoop
    apply (local_readOctet h pos).bind
    intro c _
    split_ifs with h0 h64 hroom
    · exact local_refl n _
    · exact local_refl n _
    · apply (local_readOctets h (pos+1) c.toNat).bind
      intro label _
      apply (local_refl n _).bind
      intro dot' _
      exact ih _ _ _ _ _ _
    · cases start with
      | none => exact local_refl n _
      | some s =>
        apply (local_read16 h pos).bind
        intro v _
        apply (ih _ _ _ _ _ _).bind
        intro target _
        exact local_refl n _

theorem local_decodeDotStr (start : Option ℕ) (fuel pos szDotStr room : ℕ) (dot : Mem) :
    Local n (decodeDotStr mem start fuel pos szDotStr room dot)
      (decodeDotStr mem' start fuel pos szDotStr room dot) :=
  local_decodeLoop h start fuel pos 0 0 szDotStr room dot

theorem local_questionLoop (fuel q pos : ℕ) (dot : Mem) :
    Local n (questionLoop mem fuel q pos dot) (questionLoop mem' fuel q pos dot) := by
  induction q generalizing pos dot with
  | zero => exact local_refl n _
  | succ q ih =>
    rw [questionLoop, questionLoop]
    apply (local_decodeDotStr h none fuel pos szDotName dotNameSize dot).andThen
    intro r _
    exact ih _ _

theorem local_pushAnswer (sizeofULONG fuel : ℕ) (t : UInt16) (pos : ℕ) (lists : Lists) (dot : Mem) :
    Local n (pushAnswer mem sizeofULONG fuel t pos lists dot)
      (pushAnswer mem' sizeofULONG fuel t pos lists dot) := by
  rw [pushAnswer, pushAnswer]
  split_ifs
  · apply (local_readOctets h pos sizeofULONG).bind
    intro ip _
    exact local_refl n _
  · apply (local_decodeDotStr h (some 0) fuel pos szDotName dotNameSize dot).andThen
    intro r _
    exact local_refl n _
  · exact local_refl n _

theorem local_answerLoop (sizeofULONG fuel a pos : ℕ) (lists : Lists) (dot : Mem) :
    Local n (answerLoop mem sizeofULONG fuel a pos lists dot)
      (answerLoop mem' sizeofULONG fuel a pos lists dot) := by
  induction a generalizing pos lists dot with
  | zero => exact local_refl n _
  | succ a ih =>
    rw [answerLoop, answerLoop]
    apply (local_decodeDotStr h (some 0) fuel pos szDotName dotNameSize dot).andThen
    intro r _
    apply (local_read16 h _).bind
    intro usAnswerType _
    apply (local_read16 h _).bind
    intro _ _
    apply (local_readOctets h _ _).bind
    intro _ _
    apply (local_read16 h _).bind
    intro usAnswerDataLen _
    apply (local_pushAnswer h _ _ _ _ _ _).andThen
    intro l _
    exact ih _ _ _

theorem local_parseResponse (sizeofULONG fuel : ℕ) (id : UInt16) (lists : Lists) (dot : Mem) :
    Local n (parseResponse mem sizeofULONG fuel id lists dot)
      (parseResponse mem' sizeofULONG fuel id lists dot) := by
  rw [parseResponse, parseResponse]
  apply (local_read16 h 0).bind
  intro usTransID _
  split_ifs with hid
  · apply (local_read16 h 2).bind
    intro usFlags _
    split_ifs with hf
    · apply (local_read16 h 4).bind
      intro usQuestionCount _
      apply (local_read16 h 6).bind
      intro usAnswerCount _
      split_ifs with ha
      · apply Local.bind
        · apply (local_questionLoop h _ _ _ _).andThen
          intro q _
          exact local_answerLoop h _ _ _ _ _ _
        · intro r _
          exact local_refl n _
      · exact local_refl n _
    · exact local_refl n _
  · exact local_refl n _

end

theorem same_load {mem : Mem} {d : List UInt8} (h : Holds mem 0 d) (behind : Mem) :
    Same d.length mem (load d behind) := by
  intro i hi
  have hc : [d[i]] <+: d.drop i := by
    rw [List.drop_eq_getElem_cons hi]
    exact ⟨d.drop (i+1), rfl⟩
  have hm := (holds_cons mem i d[i] []).mp (h.within i _ hc)
  rw [hm.1, load, List.getD_eq_getElem d _ hi]

/-! ## A datagram by itself -/

structure Reader where
  id : UInt16
  sizeofULONG : ℕ
  fuel : ℕ
  lists : Lists

namespace Reader
variable (c : Reader)

def parse (packet : Mem) (dot : Mem) : Run Access Received :=
  parseResponse packet c.sizeofULONG c.fuel c.id c.lists.clear dot

def alone (dot : Mem) (d : List UInt8) : Run Access Received :=
  c.parse (load (d.take recvbufSize) fun _ => 0) dot

def announcing (d : List UInt8) : Bool :=
  let packet := load (d.take recvbufSize) fun _ => 0
  decide (get16At packet 0 = c.id ∧ get16At packet 2 &&& 0xfb7f = 0x8100 ∧ 0 < (get16At packet 6).toNat)

/-- No count, length or pointer leads out of what has been received. -/
def Inside (d : List UInt8) : Prop :=
  ¬ Outside c.id c.lists.pveculIPList.isSome c.lists.pvecstrCNameList.isSome c.sizeofULONG
    (d.take recvbufSize)

theorem wants_clear (lists : Lists) :
    Wants lists.clear lists.pveculIPList.isSome lists.pvecstrCNameList.isSome := by
  simp [Wants, Lists.clear]

theorem parse_alone (d : List UInt8) (h : c.Inside d) (recvbuf : CArray recvbufSize)
    (dot beyond : Mem) : c.parse (received recvbuf d beyond) dot = c.alone dot d := by
  have hd := holds_received recvbuf d beyond
  have hreads := ((contained_iff_not_outside _ _ hd c.id c.sizeofULONG c.lists.clear dot _ _
    (wants_clear c.lists)).mpr h c.fuel).reads
  exact (local_parseResponse (same_load hd _) c.sizeofULONG c.fuel c.id c.lists.clear dot hreads).symm

theorem alone_ignored_iff (dot : Mem) (d : List UInt8) :
    (c.alone dot d).result = some .ignored ↔ c.announcing d = false := by
  simp only [alone, parse, parseResponse, announcing, Run.result_bind, result_read16,
    Option.bind_some, decide_eq_false_iff_not]
  by_cases hid : get16At (load (d.take recvbufSize) fun _ => 0) 0 = c.id
  · by_cases hf : get16At (load (d.take recvbufSize) fun _ => 0) 2 &&& 0xfb7f = 0x8100
    · by_cases ha : 0 < (get16At (load (d.take recvbufSize) fun _ => 0) 6).toNat
      · simp only [hid, hf, ha, if_true, and_true, not_true_eq_false, iff_false, Run.result_bind,
          result_read16, Option.bind_some, Option.bind_eq_some_iff, not_exists, not_and,
          Run.result_pure]
        intro r _
        cases r <;> simp
      · simp [hid, hf, ha]
    · simp [hid, hf]
  · simp [hid]

end Reader

/-! ## Lookups -/

/-- `recvLoop` with what is still in the queue of the socket. -/
def recvQueue (c : Reader) (dot beyond : Mem) :
    CArray recvbufSize → List (List UInt8) → Option (Received × List (List UInt8))
  | _, [] => none
  | recvbuf, d::ds =>
    match (c.parse (received recvbuf d beyond) dot).result with
    | none => none
    | some .ignored => recvQueue c dot beyond (recvbuf.receive d) ds
    | some r => some (r, ds)

theorem recvQueue_result (c : Reader) (dot beyond : Mem) (recvbuf : CArray recvbufSize)
    (ds : List (List UInt8)) :
    (recvQueue c dot beyond recvbuf ds).map Prod.fst =
      (recvDNSResponse c.sizeofULONG c.fuel c.id c.lists dot beyond recvbuf ds).result := by
  rw [recvDNSResponse]
  induction ds generalizing recvbuf with
  | nil => rfl
  | cons d ds ih =>
    rw [recvQueue, recvLoop, Run.result_bind]
    cases hr : (c.parse (received recvbuf d beyond) dot).result with
    | none =>
      rw [show (parseResponse (received recvbuf d beyond) c.sizeofULONG c.fuel c.id c.lists.clear
        dot).result = none from hr]
      rfl
    | some r =>
      rw [show (parseResponse (received recvbuf d beyond) c.sizeofULONG c.fuel c.id c.lists.clear
        dot).result = some r from hr]
      cases r with
      | ignored => exact ih _
      | refused => rfl
      | accepted lists pDNSData => rfl

/-- A call of `DNSLookup`, with the memory that `SendDNSRequest` and `RecvDNSResponse` find. -/
structure Call where
  szDomainName : Text
  heap : Mem
  behind : ℕ
  dot : Mem
  beyond : Mem
  recvbuf : CArray recvbufSize

def Received.lists? : Received → Option Lists
  | .accepted lists _ => some lists
  | _ => none

/-- The first result is `none` where the call never returns, and holds `none` for FALSE. -/
def dnsLookupCore (c : Reader) (call : Call) (queue : List (List UInt8)) :
    Option (Option Lists × List (List UInt8)) :=
  match sendDNSRequest c.id call.szDomainName call.heap call.behind with
  | .refused => some (none, queue)
  | .overrun => none
  | .sent _ _ =>
    (recvQueue c call.dot call.beyond call.recvbuf queue).map fun r => (Received.lists? r.1, r.2)

def lookups (c : Reader) : List Call → List (List UInt8) → Option (List (Option Lists))
  | [], _ => some []
  | call::calls, queue => do
    let (r, queue) ← dnsLookupCore c call queue
    let rs ← lookups c calls queue
    return r::rs

def decided (c : Reader) (calls : List Call) (answers : List (List UInt8)) :
    Option (List (Option Lists)) :=
  if calls.length ≤ answers.length then
    (calls.zip answers).mapM fun x => (c.alone x.1.dot x.2).result.map Received.lists?
  else none

theorem recvQueue_first (c : Reader) (dot beyond : Mem) (recvbuf : CArray recvbufSize)
    (ds : List (List UInt8)) (h : ∀ d ∈ ds, c.Inside d) :
    recvQueue c dot beyond recvbuf ds = match ds.dropWhile (fun d => !c.announcing d) with
      | [] => none
      | d::rest => (c.alone dot d).result.map fun r => (r, rest) := by
  induction ds generalizing recvbuf with
  | nil => rfl
  | cons d ds ih =>
    have hd := c.parse_alone d (h d List.mem_cons_self) recvbuf dot beyond
    have hi := c.alone_ignored_iff dot d
    rw [recvQueue, hd]
    cases ha : c.announcing d with
    | false =>
      rw [hi.mpr ha, List.dropWhile_cons_of_pos (by rw [ha]; rfl)]
      exact ih _ fun e he => h e (List.mem_cons_of_mem d he)
    | true =>
      rw [List.dropWhile_cons_of_neg (by rw [ha]; decide)]
      cases hr : (c.alone dot d).result with
      | none => simp [hr]
      | some r =>
        cases r with
        | ignored => exact absurd ((hi.mp hr).symm.trans ha) Bool.noConfusion
        | refused => simp [hr]
        | accepted lists pDNSData => simp [hr]

theorem filter_dropWhile_not (p : List UInt8 → Bool) (ds : List (List UInt8)) :
    ds.filter p = match ds.dropWhile (fun d => !p d) with
      | [] => []
      | d::rest => d::rest.filter p := by
  induction ds with
  | nil => rfl
  | cons d ds ih =>
    cases hd : p d with
    | false =>
      rw [List.filter_cons_of_neg (by rw [hd]; decide), ih,
        List.dropWhile_cons_of_pos (by rw [hd]; rfl)]
    | true =>
      rw [List.filter_cons_of_pos hd, List.dropWhile_cons_of_neg (by rw [hd]; decide)]

theorem decided_cons (c : Reader) (call : Call) (calls : List Call) (d : List UInt8)
    (answers : List (List UInt8)) :
    decided c (call::calls) (d::answers) = (c.alone call.dot d).result.bind fun r =>
      (decided c calls answers).map (Received.lists? r::·) := by
  rw [decided, decided, List.length_cons, List.length_cons, List.zip_cons_cons]
  by_cases hl : calls.length ≤ answers.length
  · rw [if_pos (Nat.succ_le_succ hl), if_pos hl, List.mapM_cons]
    cases (c.alone call.dot d).result with
    | none => rfl
    | some r =>
      cases (calls.zip answers).mapM fun x => (c.alone x.1.dot x.2).result.map Received.lists? <;> rfl
  · rw [if_neg (mt Nat.le_of_succ_le_succ hl), if_neg hl]
    cases (c.alone call.dot d).result <;> rfl

/-- The calls get the announcing datagrams one by one, in the order they come in, whatever the
calls have asked for. -/
theorem lookups_in_order (c : Reader) (calls : List Call) (queue : List (List UInt8))
    (hs : ∀ call ∈ calls, ∃ packet extent,
      sendDNSRequest c.id call.szDomainName call.heap call.behind = .sent packet extent)
    (hq : ∀ d ∈ queue, c.Inside d) :
    lookups c calls queue = decided c calls (queue.filter c.announcing) := by
  induction calls generalizing queue with
  | nil => rfl
  | cons call calls ih =>
    obtain ⟨packet, extent, hsent⟩ := hs call List.mem_cons_self
    have hfirst := recvQueue_first c call.dot call.beyond call.recvbuf queue hq
    rw [lookups, dnsLookupCore, hsent, filter_dropWhile_not]
    simp only [hfirst]
    cases hdrop : queue.dropWhile fun d => !c.announcing d with
    | nil => rfl
    | cons d rest =>
      have hrest : ∀ e ∈ rest, c.Inside e := fun e he =>
        hq e ((List.dropWhile_suffix _).subset (hdrop ▸ List.mem_cons_of_mem d he))
      have hnext := ih rest (fun call hc => hs call (List.mem_cons_of_mem _ hc)) hrest
      rw [decided_cons, ← hnext]
      dsimp only
      cases (c.alone call.dot d).result with
      | none => rfl
      | some r =>
        simp only [Option.map_some, Option.bind_eq_bind, Option.bind_some]
        cases lookups c calls rest <;> rfl

/-! ## Two lookups and one answer -/

def client : Reader := ⟨7, 4, 1, ⟨some [], some []⟩⟩

def call : Call := ⟨[0x61], fun _ => 0, 0, fun _ => 0, fun _ => 0, CArray.zero recvbufSize⟩

def stranger : List UInt8 := [0xff, 0xff]

def anAnswer : List UInt8 :=
  [0x00, 0x07, 0x81, 0x80, 0x00, 0x00, 0x00, 0x01, 0x00, 0x00, 0x00, 0x00, 0x00,
   0x00, 0x01, 0x00, 0x01, 0x00, 0x00, 0x00, 0x00, 0x00, 0x04, 0x0a, 0x00, 0x00, 0x01]

theorem stranger_inside : client.Inside stranger := by
  have hother : ¬ put16 7 <+: stranger.take recvbufSize := by decide
  intro h
  cases h with
  | id hl => exact absurd hl (by decide)
  | flags hp _ => exact hother hp
  | counts fl hp _ _ => exact hother ((List.prefix_append _ _).trans hp)
  | questions q a ha _ =>
    obtain ⟨fl, hp, _⟩ := ha.header
    exact hother ((List.prefix_append _ _).trans hp)
  | answers q a e ha _ _ =>
    obtain ⟨fl, hp, _⟩ := ha.header
    exact hother ((List.prefix_append _ _).trans hp)

theorem head_unique {c e : UInt8} {u w l : List UInt8} (h : c::u <+: l) (h' : e::w <+: l) : c = e := by
  obtain ⟨t, rfl⟩ := h
  obtain ⟨v, hv⟩ := h'
  exact (List.cons.inj hv).1.symm

section
variable {d : List UInt8} {pos : ℕ} (h : [0] <+: d.drop pos) (start : Option ℕ)
include h

theorem root_leads (room : ℕ) : ¬ NameLeads start d room pos := by
  intro hn
  cases hn with
  | missing _ _ hl =>
    rw [List.drop_eq_nil_of_le hl] at h
    exact absurd h (by decide)
  | label _ _ c hc h0 _ _ _ => exact h0 (head_unique hc h)
  | half _ _ c hc hj _ =>
    rw [head_unique hc h] at hj
    exact absurd hj.2 (by decide)
  | pointer _ _ hi lo hc hj _ =>
    rw [head_unique hc h] at hj
    exact absurd hj.2 (by decide)

theorem root_takes (len : ℕ) (ht : NameTakes start d pos len) : len = 1 := by
  obtain ⟨ls, hn, -⟩ := ht
  cases hn with
  | root _ _ => rfl
  | label _ _ l _ hl hc _ =>
    have hz := congrArg UInt8.toNat (head_unique hc h)
    have hpos := hl.pos
    have hle := hl.le
    rw [UInt8.toNat_ofNat', UInt8.toNat_zero] at hz
    omega
  | pointer _ _ hi lo _ hc hm _ =>
    rw [head_unique hc h] at hm
    exact absurd hm.2 (by decide)

end

theorem anAnswer_inside : client.Inside anAnswer := by
  have hd : Holds (load anAnswer fun _ => 0) 0 anAnswer := rfl
  have hroot : [0] <+: anAnswer.drop 12 := by decide
  have hheader (q a : UInt16) (ha : Announces 7 anAnswer q a) : q = 0 ∧ a = 1 := by
    obtain ⟨-, -, -, rfl, rfl, -⟩ := (announces_iff _ _ hd 7 q a).mp ha
    exact ⟨rfl, rfl⟩
  intro ho
  cases ho with
  | id hl => exact absurd hl (by decide)
  | flags _ hl => exact absurd hl (by decide)
  | counts _ _ _ hl => exact absurd hl (by decide)
  | questions q a ha hq =>
    obtain ⟨rfl, rfl⟩ := hheader q a ha
    cases hq
  | answers q a e ha hq hl =>
    obtain ⟨rfl, rfl⟩ := hheader q a ha
    cases hq
    cases hl with
    | owner _ _ hn => exact root_leads hroot _ _ hn
    | fixed _ _ len ht hl =>
      rw [root_takes hroot _ len ht] at hl
      exact absurd hl (by decide)
    | address _ _ len ht _ _ hl =>
      rw [root_takes hroot _ len ht] at hl
      exact absurd hl (by decide)
    | target _ _ len ht _ hc _ =>
      rw [root_takes hroot _ len ht] at hc
      exact absurd hc (by decide)
    | next _ _ len _ usAnswerDataLen ht _ hlen _ hrest =>
      rw [root_takes hroot _ len ht] at hlen hrest
      have hfour := get16At_holds _ _ _ (hd.within _ _ hlen)
      rw [← hfour] at hrest
      cases hrest with
      | past _ hl => exact absurd hl (by decide)

theorem answer_taken_twice :
    lookups client [call, call] [stranger, anAnswer, anAnswer] =
      some [some ⟨some [[10, 0, 0, 1]], some []⟩, some ⟨some [[10, 0, 0, 1]], some []⟩] := by
  have hsent : ∃ packet extent,
      sendDNSRequest client.id call.szDomainName call.heap call.behind = .sent packet extent :=
    ⟨_, _, rfl⟩
  rw [lookups_in_order client [call, call] [stranger, anAnswer, anAnswer] (by simpa using hsent)
    (by simpa using ⟨stranger_inside, anAnswer_inside⟩)]
  decide

end FasterConfig.DnsSession
