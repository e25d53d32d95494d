import FasterConfig.DnsEcho

/-!
# What a datagram decides by itself

A pass checks seven octets: five of the header and the two of the class,
wherever it takes the class to be. A datagram that is too short leaves some
of them to the datagrams before it; a name that is refused leaves the text of
an earlier name in place and moves the class into the header. Either way the
reply is no longer a function of the datagram, unless an octet of its own has
already ruled it out.
-/

set_option autoImplicit false

namespace FasterConfig.DnsHistory
open FasterConfig.Octets FasterConfig.DomainName FasterConfig.Resolv FasterConfig.DnsServer
open FasterConfig.DnsReply FasterConfig.DnsEcho

def received (datagram : List UInt8) : List UInt8 := datagram.take bufferSize

/-- The octets a pass checks when type and class stand at `q`. -/
def checks (q : ℕ) : List (ℕ × (UInt8 → Bool)) :=
  [(2, fun c => c.toNat < 8), (4, fun c => c = 0), (5, fun c => c = 1), (6, fun c => c = 0),
   (7, fun c => c = 0), (q+2, fun c => c = 0), (q+3, fun c => c = 1)]

theorem answered_iff_checks (b : Buffer) (e : Option (ℕ × List UInt8)) :
    Answered b e ↔ ∀ p ∈ checks (typeOffset e), p.2 (b.get p.1) = true := by
  simp only [Answered, isQuery_iff, nsGet16, nsCIn, get16_eq_one, get16_eq_zero, checks,
    List.forall_mem_cons, List.not_mem_nil, false_implies, implies_true, and_true,
    decide_eq_true_eq]
  tauto

def offset (datagram : List UInt8) : ℕ := typeOffset (question datagram)

def NotRejected (datagram : List UInt8) : Prop :=
  ∀ p ∈ checks (offset datagram), ∀ c, (received datagram)[p.1]? = some c → p.2 c = true

def Whole (datagram : List UInt8) : Prop :=
  (question datagram).isSome ∧ offset datagram+4 ≤ (received datagram).length

/-- Nothing received rejects the datagram, and yet it holds no whole question: its name is
refused, or it ends before the end of the class. -/
def Misread (datagram : List UInt8) : Prop := NotRejected datagram ∧ ¬ Whole datagram

theorem checks_position (datagram : List UInt8) :
    ∀ p ∈ checks (offset datagram), p.1 < offset datagram+4 ∧ p.1 < bufferSize := by
  have hb : 11 ≤ offset datagram ∧ offset datagram+4 ≤ bufferSize := typeOffset_bounds datagram
  intro p hp
  simp only [checks, List.mem_cons, List.not_mem_nil, or_false] at hp
  rcases hp with rfl | rfl | rfl | rfl | rfl | rfl | rfl <;> constructor <;> simp only <;> omega

theorem get_received (b : Buffer) (datagram : List UInt8) (i : ℕ) (c : UInt8)
    (h : (received datagram)[i]? = some c) : (b.receive datagram).get i = c := by
  obtain ⟨hi, hc⟩ := List.getElem?_eq_some_iff.mp h
  have hl : i < datagram.length ∧ i < bufferSize := by
    rw [received, List.length_take] at hi
    omega
  rw [CArray.get_receive_new b datagram i hl.1 hl.2, List.getD_eq_getElem?_getD,
    ← List.getElem?_take_of_lt hl.2, ← received, h, Option.getD_some]

theorem get_kept (b : Buffer) (datagram : List UInt8) (i : ℕ) (hb : i < bufferSize)
    (h : (received datagram).length ≤ i) : (b.receive datagram).get i = b.get i := by
  rw [received, List.length_take] at h
  exact CArray.get_receive_old b datagram i (by omega) hb

theorem rejected_not_answered (b : Buffer) (datagram : List UInt8) (h : ¬ NotRejected datagram) :
    ¬ Answered (b.receive datagram) (question datagram) := by
  simp only [NotRejected, not_forall] at h
  obtain ⟨p, hp, c, hc, hf⟩ := h
  intro ha
  have hg := (answered_iff_checks _ _).mp ha p hp
  rw [get_received b datagram p.1 c hc] at hg
  exact hf hg

theorem full_answered (b : Buffer) (datagram : List UInt8) (h : NotRejected datagram)
    (hl : offset datagram+4 ≤ (received datagram).length) :
    Answered (b.receive datagram) (question datagram) := by
  apply (answered_iff_checks _ _).mpr
  intro p hp
  have hi : p.1 < (received datagram).length := by
    have := (checks_position datagram p hp).1
    omega
  have hc := List.getElem?_eq_getElem hi
  rw [get_received b datagram p.1 _ hc]
  exact h p hp _ hc

/-! ## Histories that leave chosen octets behind -/

def image (f : ℕ → UInt8) : List UInt8 := (List.range bufferSize).map f

theorem get_image (b : Buffer) (f : ℕ → UInt8) (i : ℕ) (hi : i < bufferSize) :
    (b.receive (image f)).get i = f i := by
  have hl : (image f).length = bufferSize := by simp [image]
  rw [CArray.get_receive_new b _ i (by omega) hi, List.getD_eq_getElem?_getD]
  simp [image, hi]

theorem image_dropped (spoofAddr : InAddr) (s : State) (f : ℕ → UInt8) (h : f 2 = 0x80) :
    reply spoofAddr s (image f) = none := by
  rw [reply_eq, if_neg]
  intro ha
  have h2 := ((isQuery_iff _).mp ha.2).1
  rw [get_image _ f 2 (by decide), h] at h2
  exact absurd h2 (by decide)

theorem serve_image (spoofAddr : InAddr) (s : State) (f : ℕ → UInt8) (h : f 2 = 0x80) (i : ℕ)
    (hi : i < bufferSize) : (serve spoofAddr s (image f)).buffer.get i = f i := by
  rw [serve_buffer spoofAddr s _ (image_dropped spoofAddr s f h), get_image _ f i hi]

/-- A query of class 0 whose label of two octets stands where a refused name makes
the pass look for the class. -/
def crafted : List UInt8 :=
  [0, 0, 0, 0, 0, 1, 0, 0, 0, 0, 0, 0] ++ (wire [[0, 1]] ++ calloc (bufferSize-16))

theorem length_crafted : crafted.length = bufferSize := by
  simp only [crafted, List.length_append, calloc, List.length_replicate]
  rfl

theorem get_crafted (b : Buffer) (i : ℕ) (hi : i < bufferSize) :
    (b.receive crafted).get i = crafted.getD i 0 :=
  CArray.get_receive_new b crafted i (length_crafted ▸ hi) hi

theorem crafted_question : question crafted = some (4, text [[0, 1]]) := by
  rw [question, List.take_of_length_le (le_of_eq length_crafted)]
  exact dnExpand_wire [[0, 1]] [0, 0, 0, 0, 0, 1, 0, 0, 0, 0, 0, 0] _
    ⟨fun l hl => by rw [List.mem_singleton.mp hl]; exact ⟨by simp, by simp⟩, by decide⟩

theorem crafted_dropped (spoofAddr : InAddr) (s : State) : reply spoofAddr s crafted = none := by
  rw [reply_eq, if_neg]
  intro ha
  have hc := ha.1
  rw [crafted_question, typeOffset, nsGet16, get_crafted _ _ (by decide),
    get_crafted _ _ (by decide), nsCIn, get16_eq_one] at hc
  exact absurd hc.2 (by decide)

theorem serve_crafted (spoofAddr : InAddr) (s : State) (i : ℕ) (hi : i < bufferSize) :
    (serve spoofAddr s crafted).buffer.get i = crafted.getD i 0 := by
  rw [serve_buffer spoofAddr s _ (crafted_dropped spoofAddr s), get_crafted _ i hi]

theorem answered_after (b : Buffer) (datagram : List UInt8) (h : NotRejected datagram)
    (hb : ∀ p ∈ checks (offset datagram), (received datagram).length ≤ p.1 → p.2 (b.get p.1) = true) :
    Answered (b.receive datagram) (question datagram) := by
  apply (answered_iff_checks _ _).mpr
  intro p hp
  rcases Nat.lt_or_ge p.1 (received datagram).length with hi | hi
  · have hc := List.getElem?_eq_getElem hi
    rw [get_received b datagram p.1 _ hc]
    exact h p hp _ hc
  · rw [get_kept b datagram p.1 (checks_position datagram p hp).2 hi]
    exact hb p hp hi

theorem misread_answered (spoofAddr : InAddr) (s : State) (datagram : List UInt8)
    (h : Misread datagram) : ∃ d : List UInt8,
      Answered ((serve spoofAddr s d).buffer.receive datagram) (question datagram) := by
  obtain ⟨hn, hw⟩ := h
  cases hq : question datagram with
  | none =>
    have ho : offset datagram = 11 := by rw [offset, hq]; rfl
    refine ⟨crafted, hq ▸ answered_after _ datagram hn fun p hp _ => ?_⟩
    rw [serve_crafted spoofAddr s p.1 (checks_position datagram p hp).2]
    rw [ho] at hp
    simp only [checks, List.mem_cons, List.not_mem_nil, or_false] at hp
    rcases hp with rfl | rfl | rfl | rfl | rfl | rfl | rfl <;> rfl
  | some r =>
    have hr : 13 ≤ (received datagram).length := by
      obtain ⟨h1, -, h2, -⟩ := dnExpand_spec _ _ _ _ _ hq
      rw [received]
      omega
    let f : ℕ → UInt8 := fun i => if i = 2 then 0x80 else if i = offset datagram+3 then 1 else 0
    refine ⟨image f, hq ▸ answered_after _ datagram hn fun p hp hi => ?_⟩
    rw [serve_image spoofAddr s f rfl p.1 (checks_position datagram p hp).2]
    have h11 : 11 ≤ offset datagram := (typeOffset_bounds datagram).1
    -- the header is received, so only the class can be open
    simp only [checks, List.mem_cons, List.not_mem_nil, or_false] at hp
    rcases hp with rfl | rfl | rfl | rfl | rfl | rfl | rfl
    · simp only at hi; omega
    · simp only at hi; omega
    · simp only at hi; omega
    · simp only at hi; omega
    · simp only at hi; omega
    · simp [f, show offset datagram ≠ 0 by omega]
    · simp [f]

/-! ## Who gets an answer -/

def octet (datagram : List UInt8) (i : ℕ) : UInt8 := (received datagram).getD i 0

structure CompleteQuery (datagram : List UInt8) : Prop where
  header : 12 ≤ (received datagram).length
  qr : (octet datagram 2).toNat/128 = 0
  opcode : (octet datagram 2).toNat/8%16 = nsOQuery
  qdcount : get16 (octet datagram 4) (octet datagram 5) = 1
  ancount : get16 (octet datagram 6) (octet datagram 7) = 0
  question : ∃ nameLen t, dnExpand (received datagram) 12 nsMaxdname = some (nameLen, t) ∧
    12+nameLen+4 ≤ (received datagram).length ∧
    get16 (octet datagram (12+nameLen+2)) (octet datagram (12+nameLen+3)) = nsCIn

theorem get_octet (b : Buffer) (datagram : List UInt8) (i : ℕ)
    (h : i < (received datagram).length) : (b.receive datagram).get i = octet datagram i := by
  have hc := List.getElem?_eq_getElem h
  rw [get_received b datagram i _ hc, octet, List.getD_eq_getElem?_getD, hc, Option.getD_some]

theorem whole_answered_iff (b : Buffer) (datagram : List UInt8) (h : Whole datagram) :
    Answered (b.receive datagram) (question datagram) ↔ NotRejected datagram :=
  ⟨fun ha => by_contra fun hn => rejected_not_answered b datagram hn ha,
    fun hn => full_answered b datagram hn h.2⟩

theorem flags_iff (c : UInt8) : c.toNat/128 = 0 ∧ c.toNat/8%16 = nsOQuery ↔ c.toNat < 8 := by
  have h := c.toNat_lt
  simp only [nsOQuery]
  omega

theorem complete_whole (datagram : List UInt8) (h : CompleteQuery datagram) : Whole datagram := by
  obtain ⟨k, t, he, hl, -⟩ := h.question
  have hq : question datagram = some (k, t) := he
  exact ⟨by rw [hq]; rfl, by rw [offset, hq]; exact hl⟩

theorem complete_iff_answered (b : Buffer) (datagram : List UInt8) (h : Whole datagram) :
    CompleteQuery datagram ↔ Answered (b.receive datagram) (question datagram) := by
  obtain ⟨⟨k, t⟩, hr⟩ := Option.isSome_iff_exists.mp h.1
  have hl : 12+k+4 ≤ (received datagram).length := by
    have := h.2
    rwa [offset, hr] at this
  have hg : ∀ i, i < 12+k+4 → (b.receive datagram).get i = octet datagram i :=
    fun i hi => get_octet b datagram i (by omega)
  have ha : Answered (b.receive datagram) (question datagram) ↔
      get16 (octet datagram (12+k+2)) (octet datagram (12+k+3)) = nsCIn ∧
        (octet datagram 2).toNat < 8 ∧ get16 (octet datagram 4) (octet datagram 5) = 1 ∧
        get16 (octet datagram 6) (octet datagram 7) = 0 := by
    rw [hr, Answered, isQuery_iff, typeOffset, nsGet16, nsGet16, nsGet16, hg _ (by omega),
      hg _ (by omega), hg _ (by omega), hg _ (by omega), hg _ (by omega), hg _ (by omega),
      hg _ (by omega)]
  rw [ha]
  constructor
  · intro hc
    obtain ⟨k', t', he, -, h1⟩ := hc.question
    obtain ⟨rfl, rfl⟩ := Prod.mk.inj (Option.some.inj (hr.symm.trans he))
    exact ⟨h1, (flags_iff _).mp ⟨hc.qr, hc.opcode⟩, hc.qdcount, hc.ancount⟩
  · rintro ⟨h1, h2, h3, h4⟩
    obtain ⟨h5, h6⟩ := (flags_iff _).mpr h2
    exact ⟨by omega, h5, h6, h3, h4, k, t, hr, hl, h1⟩

theorem completeQuery_iff (datagram : List UInt8) :
    CompleteQuery datagram ↔ NotRejected datagram ∧ Whole datagram := by
  by_cases hw : Whole datagram
  · rw [complete_iff_answered (CArray.zero bufferSize) datagram hw, whole_answered_iff _ datagram hw]
    exact (and_iff_left hw).symm
  · exact iff_of_false (fun hc => hw (complete_whole datagram hc)) fun hc => hw hc.2

theorem reply_isSome_iff (spoofAddr : InAddr) (s : State) (datagram : List UInt8) :
    (reply spoofAddr s datagram).isSome ↔
      Answered (s.buffer.receive datagram) (question datagram) := by
  rw [reply_eq]
  split_ifs with h <;> simp [h]

/-- From any memory contents, a datagram is answered in every history just if it is a
complete query, exactly when it is not misread. -/
theorem answers_complete_queries_iff (spoofAddr : InAddr) (s : State) (datagram : List UInt8) :
    (∀ history, (reply spoofAddr (serveAll spoofAddr s history) datagram).isSome ↔
      CompleteQuery datagram) ↔ ¬ Misread datagram := by
  simp only [reply_isSome_iff, completeQuery_iff]
  constructor
  · intro h hm
    obtain ⟨d, ha⟩ := misread_answered spoofAddr s datagram hm
    exact hm.2 ((h [d]).mp ha).2
  · intro h history
    by_cases hw : Whole datagram
    · simp only [whole_answered_iff _ datagram hw, hw, and_true]
    · have hn : ¬ NotRejected datagram := fun hn => h ⟨hn, hw⟩
      exact iff_of_false (rejected_not_answered _ datagram hn) fun hc => hn hc.1

/-! ## Two histories, one datagram -/

theorem answer_whole (spoofAddr : InAddr) (b c : Buffer) (old new datagram : List UInt8)
    (h : Whole datagram) :
    answer spoofAddr (b.receive datagram) old (question datagram) =
      answer spoofAddr (c.receive datagram) new (question datagram) := by
  obtain ⟨r, hr⟩ := Option.isSome_iff_exists.mp h.1
  have ho : offset datagram = 12+r.1 := by rw [offset, hr]; rfl
  have hl := h.2
  have hg : ∀ i, i < offset datagram+4 →
      (b.receive datagram).get i = (c.receive datagram).get i := fun i hi =>
    (get_octet b datagram i (by omega)).trans (get_octet c datagram i (by omega)).symm
  simp only [answer, nsGet16, hr, typeOffset, nameAfter]
  rw [hg 0 (by omega), hg (0+1) (by omega), hg (12+r.1) (by omega), hg (12+r.1+1) (by omega)]

theorem letter_valid (c : UInt8) : ValidName [[c]] where
  labels := by
    intro l hl
    rw [List.mem_singleton.mp hl]
    exact ⟨Nat.le_refl 1, show 1 ≤ 63 by decide⟩
  total := show 3 ≤ 255 by decide

def letterQuery (c : UInt8) : Query := .ask [[c]] nsTA (letter_valid c)

theorem letter_name (spoofAddr : InAddr) (s : State) (c : UInt8) (hc : Plain c) :
    (serve spoofAddr s (letterQuery c).datagram).name = [c] := by
  rw [serve_name, query_question]
  exact escapeLabel_plain [c] (by simpa using hc)

/-- A refused name comes back as the name of the query before it. -/
theorem refused_answers_differ (spoofAddr : InAddr) (s : State) (datagram : List UInt8)
    (hn : NotRejected datagram) (hq : question datagram = none)
    (hl : 15 ≤ (received datagram).length) :
    reply spoofAddr (serve spoofAddr s (letterQuery 0x61).datagram) datagram ≠
      reply spoofAddr (serve spoofAddr s (letterQuery 0x62).datagram) datagram := by
  have ho : offset datagram = 11 := by rw [offset, hq]; rfl
  have ha : ∀ b : Buffer, Answered (b.receive datagram) (question datagram) :=
    fun b => full_answered b datagram hn (by omega)
  intro he
  rw [reply_eq, if_pos (ha _), reply_eq, if_pos (ha _), letter_name _ _ _ (by decide),
    letter_name _ _ _ (by decide), hq] at he
  -- both replies have the name behind the twelve octets of the header
  have hd := congrArg (List.drop 12) (Option.some.inj he)
  simp only [answer, drop_assemble, nameAfter] at hd
  rw [encodeDomain_last [0x61] (by decide), encodeDomain_last [0x62] (by decide)] at hd
  have h61 := (List.cons.inj (List.cons.inj hd).2).1
  exact absurd h61 (by decide)

theorem misread_unanswered (spoofAddr : InAddr) (s : State) (datagram : List UInt8)
    (hl : (received datagram).length < offset datagram+4) : ∃ d : List UInt8,
      ¬ Answered ((serve spoofAddr s d).buffer.receive datagram) (question datagram) := by
  have hb : 11 ≤ offset datagram ∧ offset datagram+4 ≤ bufferSize := typeOffset_bounds datagram
  refine ⟨image fun i => if i = 2 then 0x80 else 0, fun ha => ?_⟩
  have hc := (answered_iff_checks _ _).mp ha (offset datagram+3, fun c => c = 1)
    (by simp [checks, offset])
  rw [get_kept _ datagram _ (by omega) (by omega), serve_image spoofAddr s _ rfl _ (by omega)] at hc
  simp at hc

/-- From any memory contents, the reply to a datagram is the same after any two histories
exactly when the datagram is not misread. -/
theorem reply_history_independent_iff (spoofAddr : InAddr) (s : State) (datagram : List UInt8) :
    (∀ h₁ h₂, reply spoofAddr (serveAll spoofAddr s h₁) datagram =
      reply spoofAddr (serveAll spoofAddr s h₂) datagram) ↔ ¬ Misread datagram := by
  constructor
  · intro h hm
    rcases Nat.lt_or_ge (received datagram).length (offset datagram+4) with hl | hl
    · obtain ⟨d, hd⟩ := misread_answered spoofAddr s datagram hm
      obtain ⟨e, he⟩ := misread_unanswered spoofAddr s datagram hl
      have hr := congrArg Option.isSome (h [d] [e])
      rw [Bool.eq_iff_iff, reply_isSome_iff, reply_isSome_iff] at hr
      exact he (hr.mp hd)
    · have hq : question datagram = none := by
        by_contra hs
        exact hm.2 ⟨Option.isSome_iff_ne_none.mpr hs, hl⟩
      have ho : offset datagram = 11 := by rw [offset, hq]; rfl
      exact refused_answers_differ spoofAddr s datagram hm.1 hq (by omega)
        (h [(letterQuery 0x61).datagram] [(letterQuery 0x62).datagram])
  · intro h h₁ h₂
    rw [reply_eq, reply_eq]
    by_cases hn : NotRejected datagram
    · have hw : Whole datagram := by_contra fun hw => h ⟨hn, hw⟩
      rw [if_pos (full_answered _ datagram hn hw.2), if_pos (full_answered _ datagram hn hw.2),
        answer_whole spoofAddr _ _ _ _ datagram hw]
    · rw [if_neg (rejected_not_answered _ datagram hn), if_neg (rejected_not_answered _ datagram hn)]

/-- A standard query whose name starts with a reserved label type. -/
def reservedLabel : List UInt8 := [0, 7, 0x01, 0, 0, 1, 0, 0, 0, 0, 0, 0, 0x80, 0, 1]

theorem reserved_question : question reservedLabel = none := by
  decide +kernel

theorem reserved_notRejected : NotRejected reservedLabel := by
  have ho : offset reservedLabel = 11 := by rw [offset, reserved_question]; rfl
  intro p hp c hc
  rw [ho] at hp
  simp only [checks, List.mem_cons, List.not_mem_nil, or_false] at hp
  rcases hp with rfl | rfl | rfl | rfl | rfl | rfl | rfl <;>
    cases Option.some.inj hc <;> decide

theorem reserved_label_leaks_name :
    reply ⟨172, 31, 1, 2⟩ (serveAll ⟨172, 31, 1, 2⟩ State.start [(letterQuery 0x61).datagram])
      reservedLabel ≠
    reply ⟨172, 31, 1, 2⟩ (serveAll ⟨172, 31, 1, 2⟩ State.start [(letterQuery 0x62).datagram])
      reservedLabel :=
  refused_answers_differ _ _ _ reserved_notRejected reserved_question (by decide)

theorem reserved_label_answered :
    (reply ⟨172, 31, 1, 2⟩ State.start reservedLabel).isSome ∧ ¬ CompleteQuery reservedLabel := by
  have ho : offset reservedLabel = 11 := by rw [offset, reserved_question]; rfl
  constructor
  · rw [reply_isSome_iff]
    exact full_answered _ _ reserved_notRejected (by rw [ho]; decide)
  · intro h
    have hw := (complete_whole _ h).1
    rw [reserved_question] at hw
    exact absurd hw (by decide)

end FasterConfig.DnsHistory
