import FasterConfig.DnsReceive

/-!
# What the client reads

Nothing in the receive loop compares a place with the number of octets that
have come in. It stays inside a datagram exactly when nothing in the datagram
leads outside: no name, pointer, record, address or data length.
-/

set_option autoImplicit false

namespace FasterConfig.DnsContained
open FasterConfig.Octets FasterConfig.DomainName FasterConfig.Memory FasterConfig.DnsQuery
open FasterConfig.DnsRequest FasterConfig.Traced FasterConfig.DotStr FasterConfig.DnsReceive

/-! ## Where a datagram leads -/

/-- Any length octet from 64 on is a pointer, if there is a packet start at all. -/
def jumps (start : Option ℕ) (c : ℕ) : Prop := start = some 0 ∧ 64 ≤ c

/-- Read with `room` octets of text left, the name at this place runs out of the datagram. -/
inductive NameLeads (start : Option ℕ) (d : List UInt8) : ℕ → ℕ → Prop where
  | missing (room pos : ℕ) (h : d.length ≤ pos) : NameLeads start d room pos
  | label (room pos : ℕ) (c : UInt8) (h : [c] <+: d.drop pos) (h0 : c ≠ 0) (h64 : c.toNat < 64)
      (hr : c.toNat+1 ≤ room) (rest : NameLeads start d (room-(c.toNat+1)) (pos+(c.toNat+1))) :
      NameLeads start d room pos
  | half (room pos : ℕ) (c : UInt8) (h : [c] <+: d.drop pos) (hj : jumps start c.toNat)
      (hl : d.length ≤ pos+1) : NameLeads start d room pos
  | pointer (room pos : ℕ) (hi lo : UInt8) (h : [hi, lo] <+: d.drop pos)
      (hj : jumps start hi.toNat)
      (target : NameLeads start d room ((get16 hi lo).toNat%16384)) : NameLeads start d room pos

def NameTakes (start : Option ℕ) (d : List UInt8) (pos len : ℕ) : Prop :=
  ∃ ls, NameAt (jumps start) d pos ls len ∧ (wireLabels ls).length ≤ dotNameSize

/-- The questions from a place on end at the second one. -/
inductive QuestionsAt (d : List UInt8) : ℕ → ℕ → ℕ → Prop where
  | nil (pos : ℕ) : QuestionsAt d 0 pos pos
  | cons (q pos len e : ℕ) (h : NameTakes none d pos len)
      (rest : QuestionsAt d q (pos+(len+dnsTypeSize+dnsClassSize)) e) : QuestionsAt d (q+1) pos e

inductive QuestionsLead (d : List UInt8) : ℕ → ℕ → Prop where
  | name (q pos : ℕ) (h : NameLeads none d dotNameSize pos) : QuestionsLead d (q+1) pos
  | next (q pos len : ℕ) (h : NameTakes none d pos len)
      (rest : QuestionsLead d q (pos+(len+dnsTypeSize+dnsClassSize))) : QuestionsLead d (q+1) pos

/-- `addresses` and `cnames` say which lists are wanted. -/
inductive AnswersLead (addresses cnames : Bool) (sizeofULONG : ℕ) (d : List UInt8) :
    ℕ → ℕ → Prop where
  | past (pos : ℕ) (h : d.length < pos) : AnswersLead addresses cnames sizeofULONG d 0 pos
  | owner (a pos : ℕ) (h : NameLeads (some 0) d dotNameSize pos) :
      AnswersLead addresses cnames sizeofULONG d (a+1) pos
  | fixed (a pos len : ℕ) (h : NameTakes (some 0) d pos len)
      (hl : d.length < pos+len+max 10 (4+sizeofULONG)) :
      AnswersLead addresses cnames sizeofULONG d (a+1) pos
  | address (a pos len : ℕ) (h : NameTakes (some 0) d pos len) (hw : addresses = true)
      (ht : put16 dnsTypeA <+: d.drop (pos+len)) (hl : d.length < pos+len+10+sizeofULONG) :
      AnswersLead addresses cnames sizeofULONG d (a+1) pos
  | target (a pos len : ℕ) (h : NameTakes (some 0) d pos len) (hw : cnames = true)
      (ht : put16 dnsTypeCname <+: d.drop (pos+len))
      (hl : NameLeads (some 0) d dotNameSize (pos+len+10)) :
      AnswersLead addresses cnames sizeofULONG d (a+1) pos
  | next (a pos len : ℕ) (usAnswerType usAnswerDataLen : UInt16) (h : NameTakes (some 0) d pos len)
      (ht : put16 usAnswerType <+: d.drop (pos+len))
      (hd : put16 usAnswerDataLen <+: d.drop (pos+len+8))
      (hc : usAnswerType = dnsTypeCname → cnames = true → ∃ k, NameTakes (some 0) d (pos+len+10) k)
      (rest : AnswersLead addresses cnames sizeofULONG d a (pos+len+10+usAnswerDataLen.toNat)) :
      AnswersLead addresses cnames sizeofULONG d (a+1) pos

structure Announces (id : UInt16) (d : List UInt8) (questions answers : UInt16) : Prop where
  header : ∃ flags, put16 id ++ (put16 flags ++ (put16 questions ++ put16 answers)) <+: d ∧
    flags &&& 0xfb7f = 0x8100
  positive : 0 < answers.toNat

inductive Outside (id : UInt16) (addresses cnames : Bool) (sizeofULONG : ℕ) (d : List UInt8) :
    Prop where
  | id (h : d.length < 2)
  | flags (h : put16 id <+: d) (hl : d.length < 4)
  | counts (fl : UInt16) (h : put16 id ++ put16 fl <+: d) (hf : fl &&& 0xfb7f = 0x8100)
      (hl : d.length < 8)
  | questions (q a : UInt16) (h : Announces id d q a) (hq : QuestionsLead d q.toNat hdrOffset)
  | answers (q a : UInt16) (e : ℕ) (h : Announces id d q a) (hq : QuestionsAt d q.toNat hdrOffset e)
      (ha : AnswersLead addresses cnames sizeofULONG d a.toNat e)

/-! ## Names -/

section Names
variable (packet : Mem) (d : List UInt8) (hd : Holds packet 0 d)
include hd

theorem decodeLoop_contained (start : Option ℕ) (hs : start = none ∨ start = some 0) (fuel : ℕ)
    (pos plain enc s size : ℕ) (dot : Mem) (hp : plain ≤ size)
    (hl : ¬ NameLeads start d (size-plain) pos) :
    (decodeLoop packet start fuel pos plain enc s size dot).All (Access.Below d.length) ∧
      ∀ r, (decodeLoop packet start fuel pos plain enc s size dot).result = some (some r) →
        ∃ ls len, NameAt (jumps start) d pos ls len ∧ (wireLabels ls).length ≤ size-plain ∧
          r.encodedStrLen = enc+len := by
  induction fuel generalizing pos plain enc s size dot with
  | zero => exact ⟨Run.all_starved _, by intro r h; cases h⟩
  | succ fuel ih =>
    have hpos : pos < d.length := Nat.lt_of_not_le fun h => hl (.missing _ _ h)
    have hfirst : [packet pos] <+: d.drop pos := hd.slice_prefix pos 1 hpos
    by_cases h0 : packet pos = 0
    · refine ⟨(below_root _ _ _ _ _ _ _ _ _ _ h0).mpr hpos, fun r h => ?_⟩
      rw [result_root _ _ _ _ _ _ _ _ _ h0] at h
      cases h
      exact ⟨[], 1, .root pos (h0 ▸ hfirst), by simp, rfl⟩
    · by_cases h64 : (packet pos).toNat < 64
      · rw [below_label _ _ _ _ _ _ _ _ _ _ h0 h64, result_label _ _ _ _ _ _ _ _ _ h0 h64]
        by_cases hroom : size < plain+(packet pos).toNat+1
        · rw [if_pos hroom]
          exact ⟨⟨hpos, fun h => absurd h (Nat.not_le_of_lt hroom)⟩, by intro r h; cases h⟩
        · rw [if_neg hroom]
          have hrest : ¬ NameLeads start d (size-(plain+((packet pos).toNat+1)))
              (pos+((packet pos).toNat+1)) := by
            intro h
            rw [Nat.sub_add_eq] at h
            exact hl (.label _ _ _ hfirst h0 h64 (by omega) h)
          have hin : pos+((packet pos).toNat+1) < d.length :=
            Nat.lt_of_not_le fun h => hrest (.missing _ _ h)
          obtain ⟨ha, hn⟩ := ih _ _ (enc+((packet pos).toNat+1)) s size
            (store dot (s+plain) (slice packet (pos+1) (packet pos).toNat ++ [0x2e])) (by omega) hrest
          refine ⟨⟨hpos, fun _ => ⟨Nat.le_of_lt hin, ha⟩⟩, fun r h => ?_⟩
          obtain ⟨ls, len, hname, hfit, he⟩ := hn r h
          have hlab : UInt8.ofNat (slice packet (pos+1) (packet pos).toNat).length::
              slice packet (pos+1) (packet pos).toNat <+: d.drop pos := by
            rw [length_slice, UInt8.ofNat_toNat]
            exact hd.slice_prefix pos ((packet pos).toNat+1) (Nat.le_of_lt hin)
          have hv := label_valid packet pos h0 h64
          refine ⟨_, _, .label pos len _ ls hv hlab (by rwa [length_slice]), ?_, ?_⟩
          · rw [wireLabels_cons, List.length_append, List.length_cons, length_slice]
            omega
          · rw [he, length_slice, Nat.add_assoc]
      · have h64' := Nat.le_of_not_lt h64
        rcases hs with rfl | rfl
        · obtain ⟨hr, ha⟩ := pointer_refused packet fuel pos plain enc s size dot d.length h64'
          rw [hr, ha]
          exact ⟨hpos, by intro r h; cases h⟩
        · have hsecond : pos+1 < d.length :=
            Nat.lt_of_not_le fun h => hl (.half _ _ _ hfirst ⟨rfl, h64'⟩ h)
          have hboth : [packet pos, packet (pos+1)] <+: d.drop pos :=
            hd.slice_prefix pos 2 hsecond
          have htarget : ¬ NameLeads (some 0) d (size-plain-0)
              (0+(get16At packet pos).toNat%16384) := by
            rw [Nat.zero_add]
            exact fun h => hl (.pointer _ _ _ _ hboth ⟨rfl, h64'⟩ h)
          obtain ⟨ha, hn⟩ := ih _ 0 0 (s+plain) (size-plain) dot (Nat.zero_le _) htarget
          rw [below_pointer _ _ _ _ _ _ _ _ _ _ h64', result_pointer _ _ _ _ _ _ _ _ _ h64']
          refine ⟨⟨hsecond, ha⟩, fun r h => ?_⟩
          obtain ⟨x, hx, hxr⟩ := Option.map_eq_some_iff.mp h
          obtain ⟨r', rfl, rfl⟩ := Option.map_eq_some_iff.mp hxr
          obtain ⟨ls, len, hname, hfit, -⟩ := hn r' hx
          rw [Nat.zero_add] at hname
          exact ⟨ls, 2, .pointer pos len _ _ ls hboth ⟨rfl, h64'⟩ hname, hfit, rfl⟩

theorem decodeLoop_escapes (start : Option ℕ) (room pos : ℕ) (h : NameLeads start d room pos) :
    ∃ needed, ∀ fuel, needed ≤ fuel → ∀ plain enc s size dot, plain ≤ size → size-plain = room →
      ¬ (decodeLoop packet start fuel pos plain enc s size dot).All (Access.Below d.length) := by
  induction h with
  | missing room pos h =>
    refine ⟨1, fun fuel hf plain enc s size dot hp hr ha => ?_⟩
    obtain ⟨fuel, rfl⟩ := Nat.exists_eq_add_of_le' hf
    have := below_first _ _ _ _ _ _ _ _ _ _ ha
    omega
  | label room pos c h h0 h64 hr rest ih =>
    obtain ⟨needed, ih⟩ := ih
    have hc := ((holds_cons _ _ _ _).mp (hd.within pos _ h)).1
    refine ⟨needed+1, fun fuel hf plain enc s size dot hp hroom ha => ?_⟩
    obtain ⟨fuel, rfl⟩ := Nat.exists_eq_add_of_le' (Nat.le_trans (Nat.le_add_left 1 needed) hf)
    rw [below_label _ _ _ _ _ _ _ _ _ _ (hc ▸ h0) (hc ▸ h64), hc] at ha
    exact ih fuel (by omega) _ _ _ _ _ (by omega) (by omega) (ha.2 (by omega)).2
  | half room pos c h hj hl =>
    obtain ⟨rfl, h64⟩ := hj
    have hc := ((holds_cons _ _ _ _).mp (hd.within pos _ h)).1
    refine ⟨1, fun fuel hf plain enc s size dot hp hroom ha => ?_⟩
    obtain ⟨fuel, rfl⟩ := Nat.exists_eq_add_of_le' hf
    rw [below_pointer _ _ _ _ _ _ _ _ _ _ (hc ▸ h64)] at ha
    omega
  | pointer room pos hi lo h hj target ih =>
    obtain ⟨needed, ih⟩ := ih
    obtain ⟨rfl, h64⟩ := hj
    obtain ⟨hc, hw⟩ := pointer_octets packet d hd pos hi lo h
    refine ⟨needed+1, fun fuel hf plain enc s size dot hp hroom ha => ?_⟩
    obtain ⟨fuel, rfl⟩ := Nat.exists_eq_add_of_le' (Nat.le_trans (Nat.le_add_left 1 needed) hf)
    rw [below_pointer _ _ _ _ _ _ _ _ _ _ (hc ▸ h64), hw, Nat.zero_add] at ha
    exact ih fuel (by omega) _ _ _ _ _ (Nat.zero_le _) hroom ha.2

theorem decodeDotStr_contained (start : Option ℕ) (hs : start = none ∨ start = some 0)
    (fuel pos : ℕ) (dot : Mem) (hl : ¬ NameLeads start d dotNameSize pos) :
    (decodeDotStr packet start fuel pos szDotName dotNameSize dot).All (Access.Below d.length) ∧
      ∀ r, (decodeDotStr packet start fuel pos szDotName dotNameSize dot).result = some (some r) →
        NameTakes start d pos r.encodedStrLen := by
  obtain ⟨ha, hn⟩ := decodeLoop_contained packet d hd start hs fuel pos 0 0 szDotName dotNameSize dot
    (Nat.zero_le _) hl
  refine ⟨ha, fun r h => ?_⟩
  obtain ⟨ls, len, hname, hfit, he⟩ := hn r h
  rw [Nat.zero_add] at he
  exact ⟨ls, he ▸ hname, hfit⟩

theorem decodeDotStr_escapes (start : Option ℕ) (pos : ℕ) (h : NameLeads start d dotNameSize pos) :
    ∃ needed, ∀ fuel, needed ≤ fuel → ∀ dot,
      ¬ (decodeDotStr packet start fuel pos szDotName dotNameSize dot).All (Access.Below d.length) := by
  obtain ⟨needed, hn⟩ := decodeLoop_escapes packet d hd start dotNameSize pos h
  exact ⟨needed, fun fuel hf dot => hn fuel hf 0 0 szDotName dotNameSize dot (Nat.zero_le _) rfl⟩

theorem decodeDotStr_takes (start : Option ℕ) (pos len : ℕ) (h : NameTakes start d pos len) :
    ∃ needed, ∀ fuel, needed ≤ fuel → ∀ dot, ∃ dot',
      (decodeDotStr packet start fuel pos szDotName dotNameSize dot).result =
        some (some ⟨len, dot'⟩) := by
  obtain ⟨ls, hname, hfit⟩ := h
  obtain ⟨needed, hn⟩ := decodeLoop_name packet d hd start (jumps start) (fun c hc => hc.symm) pos
    len ls hname
  refine ⟨needed, fun fuel hf dot => ⟨ended dot szDotName ls, ?_⟩⟩
  rw [decodeDotStr, hn fuel hf 0 0 szDotName dotNameSize dot (Nat.le_refl _) (Nat.zero_le _),
    if_pos (by rwa [Nat.zero_add]), Nat.zero_add]
  rfl

end Names

/-! ## Questions -/

section Questions
variable (packet : Mem) (d : List UInt8) (hd : Holds packet 0 d)
include hd

theorem questionLoop_contained (fuel q pos : ℕ) (dot : Mem) (hl : ¬ QuestionsLead d q pos) :
    (questionLoop packet fuel q pos dot).All (Access.Below d.length) ∧
      ∀ r, (questionLoop packet fuel q pos dot).result = some (some r) → QuestionsAt d q pos r.1 := by
  induction q generalizing pos dot with
  | zero =>
    refine ⟨Run.all_pure _ _, fun r h => ?_⟩
    cases h
    exact .nil pos
  | succ q ih =>
    have hname : ¬ NameLeads none d dotNameSize pos := fun h => hl (.name q pos h)
    obtain ⟨ha, hn⟩ := decodeDotStr_contained packet d hd none (.inl rfl) fuel pos dot hname
    have hrest : ∀ r, (decodeDotStr packet none fuel pos szDotName dotNameSize dot).result =
        some (some r) → ¬ QuestionsLead d q (pos+(r.encodedStrLen+dnsTypeSize+dnsClassSize)) :=
      fun r hr h => hl (.next q pos _ (hn r hr) h)
    rw [questionLoop, Run.all_andThen]
    refine ⟨⟨ha, fun r hr => (ih _ _ (hrest r hr)).1⟩, fun r h => ?_⟩
    obtain ⟨x, hx, hxr⟩ := (Run.result_andThen_some _ _ _).mp h
    exact .cons q pos _ _ (hn x hx) ((ih _ _ (hrest x hx)).2 r hxr)

theorem questionLoop_escapes (q pos : ℕ) (h : QuestionsLead d q pos) :
    ∃ needed, ∀ fuel, needed ≤ fuel → ∀ dot,
      ¬ (questionLoop packet fuel q pos dot).All (Access.Below d.length) := by
  induction h with
  | name q pos h =>
    obtain ⟨needed, hn⟩ := decodeDotStr_escapes packet d hd none pos h
    refine ⟨needed, fun fuel hf dot ha => ?_⟩
    rw [questionLoop, Run.all_andThen] at ha
    exact hn fuel hf dot ha.1
  | next q pos len h rest ih =>
    obtain ⟨needed, ih⟩ := ih
    obtain ⟨needed', hn⟩ := decodeDotStr_takes packet d hd none pos len h
    refine ⟨max needed needed', fun fuel hf dot ha => ?_⟩
    obtain ⟨dot', hr⟩ := hn fuel (by omega) dot
    rw [questionLoop, Run.all_andThen] at ha
    exact ih fuel (by omega) dot' (ha.2 _ hr)

theorem questionLoop_at (q pos e : ℕ) (h : QuestionsAt d q pos e) :
    ∃ needed, ∀ fuel, needed ≤ fuel → ∀ dot, ∃ dot',
      (questionLoop packet fuel q pos dot).result = some (some (e, dot')) := by
  induction h with
  | nil pos => exact ⟨0, fun fuel _ dot => ⟨dot, rfl⟩⟩
  | cons q pos len e h rest ih =>
    obtain ⟨needed, ih⟩ := ih
    obtain ⟨needed', hn⟩ := decodeDotStr_takes packet d hd none pos len h
    refine ⟨max needed needed', fun fuel hf dot => ?_⟩
    obtain ⟨dot', hr⟩ := hn fuel (by omega) dot
    obtain ⟨dot'', hq⟩ := ih fuel (by omega) dot'
    rw [questionLoop]
    exact ⟨dot'', (Run.result_andThen_some _ _ _).mpr ⟨_, hr, hq⟩⟩

end Questions

/-! ## Answers -/

def AnswersContained (n : ℕ) (run : Run Access (Option (Lists × ℕ))) : Prop :=
  run.All (Access.Below n) ∧ ∀ r, run.result = some (some r) → r.2 ≤ n

def Wants (lists : Lists) (addresses cnames : Bool) : Prop :=
  lists.pveculIPList.isSome = addresses ∧ lists.pvecstrCNameList.isSome = cnames

theorem wants_pushIP (lists : Lists) (addresses cnames : Bool) (ip : List UInt8)
    (h : Wants lists addresses cnames) : Wants (lists.pushIP ip) addresses cnames := by
  simpa [Wants, Lists.pushIP] using h

theorem wants_pushCName (lists : Lists) (addresses cnames : Bool) (name : List UInt8)
    (h : Wants lists addresses cnames) : Wants (lists.pushCName name) addresses cnames := by
  simpa [Wants, Lists.pushCName] using h

section Answers
variable (packet : Mem) (d : List UInt8) (hd : Holds packet 0 d) (addresses cnames : Bool)
  (sizeofULONG : ℕ)

theorem answerLoop_below (fuel a pos n : ℕ) (lists : Lists) (dot : Mem) :
    (answerLoop packet sizeofULONG fuel (a+1) pos lists dot).All (Access.Below n) ↔
      (decodeDotStr packet (some 0) fuel pos szDotName dotNameSize dot).All (Access.Below n) ∧
      ∀ r, (decodeDotStr packet (some 0) fuel pos szDotName dotNameSize dot).result = some (some r) →
        pos+r.encodedStrLen+max 10 (4+sizeofULONG) ≤ n ∧
        ((pushAnswer packet sizeofULONG fuel (get16At packet (pos+r.encodedStrLen))
            (pos+r.encodedStrLen+10) lists r.dot).All (Access.Below n) ∧
          ∀ l, (pushAnswer packet sizeofULONG fuel (get16At packet (pos+r.encodedStrLen))
              (pos+r.encodedStrLen+10) lists r.dot).result = some (some l) →
            (answerLoop packet sizeofULONG fuel a (pos+r.encodedStrLen+10+
              (get16At packet (pos+r.encodedStrLen+8)).toNat) l.1 l.2).All (Access.Below n)) := by
  simp only [answerLoop, Run.all_andThen, Run.all_bind, result_read16, result_readOctets,
    Option.some.injEq, forall_eq', read16_below, readOctets_below, dnsTypeSize, dnsClassSize,
    dnsTtlSize, dnsDatalenSize, Nat.add_assoc, Nat.reduceAdd]
  apply and_congr_right'
  apply forall_congr'
  intro r
  apply imp_congr_right
  intro hr
  rw [← and_assoc, ← and_assoc, ← and_assoc]
  apply and_congr_left'
  omega

theorem answersContained_rest (fuel a pos n : ℕ) (lists : Lists) (dot : Mem) (r : Decoded)
    (l : Lists × Mem)
    (hr : (decodeDotStr packet (some 0) fuel pos szDotName dotNameSize dot).result = some (some r))
    (hl : (pushAnswer packet sizeofULONG fuel (get16At packet (pos+r.encodedStrLen))
      (pos+r.encodedStrLen+10) lists r.dot).result = some (some l))
    (h : AnswersContained n (answerLoop packet sizeofULONG fuel (a+1) pos lists dot)) :
    AnswersContained n (answerLoop packet sizeofULONG fuel a
      (pos+r.encodedStrLen+10+(get16At packet (pos+r.encodedStrLen+8)).toNat) l.1 l.2) := by
  obtain ⟨ha, he⟩ := h
  have hrest := (((answerLoop_below _ _ _ _ _ _ _ _).mp ha).2 r hr).2.2 l hl
  exact ⟨hrest, fun x hx => he x ((answerLoop_some _ _ _ _ _ _ _ _).mpr ⟨r, hr, l, hl, hx⟩)⟩

include hd

theorem pushAnswer_contained (fuel pos : ℕ) (t : UInt16) (lists : Lists) (dot : Mem)
    (hw : Wants lists addresses cnames)
    (hA : t = dnsTypeA → addresses = true → pos+sizeofULONG ≤ d.length)
    (hC : t = dnsTypeCname → cnames = true → ¬ NameLeads (some 0) d dotNameSize pos) :
    (pushAnswer packet sizeofULONG fuel t pos lists dot).All (Access.Below d.length) ∧
      ∀ r, (pushAnswer packet sizeofULONG fuel t pos lists dot).result = some (some r) →
        Wants r.1 addresses cnames ∧
          (t = dnsTypeCname → cnames = true → ∃ k, NameTakes (some 0) d pos k) := by
  by_cases ht : t = dnsTypeA ∧ lists.pveculIPList.isSome
  · rw [pushAnswer, if_pos ht, Run.all_bind]
    have hin := hA ht.1 (hw.1 ▸ ht.2)
    refine ⟨⟨(readOctets_below _ _ _ _).mpr (.inr hin), fun _ _ => Run.all_pure _ _⟩, fun r h => ?_⟩
    cases h
    exact ⟨wants_pushIP _ _ _ _ hw, fun hc => absurd (ht.1.symm.trans hc) (by decide)⟩
  · by_cases hc : t = dnsTypeCname ∧ lists.pvecstrCNameList.isSome
    · rw [pushAnswer, if_neg ht, if_pos hc, Run.all_andThen]
      obtain ⟨ha, hn⟩ := decodeDotStr_contained packet d hd (some 0) (.inr rfl) fuel pos dot
        (hC hc.1 (hw.2 ▸ hc.2))
      refine ⟨⟨ha, fun _ _ => Run.all_pure _ _⟩, fun r h => ?_⟩
      obtain ⟨x, hx, hxr⟩ := (Run.result_andThen_some _ _ _).mp h
      cases hxr
      exact ⟨wants_pushCName _ _ _ _ hw, fun _ _ => ⟨_, hn x hx⟩⟩
    · rw [pushAnswer, if_neg ht, if_neg hc]
      refine ⟨Run.all_pure _ _, fun r h => ?_⟩
      cases h
      exact ⟨hw, fun h1 h2 => absurd ⟨h1, hw.2.trans h2⟩ hc⟩

theorem pushAnswer_goes_on (pos : ℕ) (t : UInt16)
    (hC : t = dnsTypeCname → cnames = true → ∃ k, NameTakes (some 0) d pos k) :
    ∃ needed, ∀ fuel, needed ≤ fuel → ∀ lists dot, Wants lists addresses cnames →
      ∃ l, (pushAnswer packet sizeofULONG fuel t pos lists dot).result = some (some l) ∧
        Wants l.1 addresses cnames := by
  by_cases ht : t = dnsTypeCname ∧ cnames = true
  · obtain ⟨k, hk⟩ := hC ht.1 ht.2
    obtain ⟨needed, hn⟩ := decodeDotStr_takes packet d hd (some 0) pos k hk
    refine ⟨needed, fun fuel hf lists dot hw => ?_⟩
    obtain ⟨dot', hr⟩ := hn fuel hf dot
    have hA : ¬ (t = dnsTypeA ∧ lists.pveculIPList.isSome) :=
      fun h => absurd (h.1.symm.trans ht.1) (by decide)
    rw [pushAnswer, if_neg hA, if_pos ⟨ht.1, hw.2.trans ht.2⟩, Run.result_andThen, hr]
    exact ⟨_, rfl, wants_pushCName _ _ _ _ hw⟩
  · refine ⟨0, fun fuel _ lists dot hw => ?_⟩
    have hC : ¬ (t = dnsTypeCname ∧ lists.pvecstrCNameList.isSome) :=
      fun h => ht ⟨h.1, hw.2.symm.trans h.2⟩
    by_cases hA : t = dnsTypeA ∧ lists.pveculIPList.isSome
    · rw [pushAnswer, if_pos hA]
      exact ⟨_, rfl, wants_pushIP _ _ _ _ hw⟩
    · rw [pushAnswer, if_neg hA, if_neg hC]
      exact ⟨_, rfl, hw⟩

theorem answerLoop_contained (fuel a pos : ℕ) (lists : Lists) (dot : Mem)
    (hw : Wants lists addresses cnames) (hl : ¬ AnswersLead addresses cnames sizeofULONG d a pos) :
    AnswersContained d.length (answerLoop packet sizeofULONG fuel a pos lists dot) := by
  induction a generalizing pos lists dot with
  | zero =>
    refine ⟨Run.all_pure _ _, fun r h => ?_⟩
    cases h
    exact Nat.le_of_not_lt fun h => hl (.past pos h)
  | succ a ih =>
    have hname : ¬ NameLeads (some 0) d dotNameSize pos := fun h => hl (.owner a pos h)
    obtain ⟨ha, hn⟩ := decodeDotStr_contained packet d hd (some 0) (.inr rfl) fuel pos dot hname
    have hrecord : ∀ r, (decodeDotStr packet (some 0) fuel pos szDotName dotNameSize dot).result =
        some (some r) → pos+r.encodedStrLen+max 10 (4+sizeofULONG) ≤ d.length ∧
          (pushAnswer packet sizeofULONG fuel (get16At packet (pos+r.encodedStrLen))
            (pos+r.encodedStrLen+10) lists r.dot).All (Access.Below d.length) ∧
          ∀ l, (pushAnswer packet sizeofULONG fuel (get16At packet (pos+r.encodedStrLen))
              (pos+r.encodedStrLen+10) lists r.dot).result = some (some l) →
            AnswersContained d.length (answerLoop packet sizeofULONG fuel a (pos+r.encodedStrLen+10+
              (get16At packet (pos+r.encodedStrLen+8)).toNat) l.1 l.2) := by
      intro r hr
      have htakes := hn r hr
      have hfixed : pos+r.encodedStrLen+max 10 (4+sizeofULONG) ≤ d.length :=
        Nat.le_of_not_lt fun h => hl (.fixed a pos _ htakes h)
      have hten : pos+r.encodedStrLen+10 ≤ d.length :=
        Nat.le_trans (Nat.add_le_add_left (Nat.le_max_left 10 _) _) hfixed
      have htype : put16 (get16At packet (pos+r.encodedStrLen)) <+: d.drop (pos+r.encodedStrLen) := by
        rw [get16At, put16_get16]
        exact hd.slice_prefix _ 2 (by omega)
      have hlen : put16 (get16At packet (pos+r.encodedStrLen+8)) <+:
          d.drop (pos+r.encodedStrLen+8) := by
        rw [get16At, put16_get16]
        exact hd.slice_prefix _ 2 (by omega)
      obtain ⟨hp, hr'⟩ := pushAnswer_contained packet d hd addresses cnames sizeofULONG fuel
        (pos+r.encodedStrLen+10) (get16At packet (pos+r.encodedStrLen)) lists r.dot hw
        (fun ht h => Nat.le_of_not_lt fun hx => hl (.address a pos _ htakes h (ht ▸ htype) hx))
        (fun ht h hx => hl (.target a pos _ htakes h (ht ▸ htype) hx))
      refine ⟨hfixed, hp, fun l h => ?_⟩
      obtain ⟨hw', hc⟩ := hr' l h
      exact ih _ _ _ hw' fun hx => hl (.next a pos _ _ _ htakes htype hlen hc hx)
    refine ⟨(answerLoop_below _ _ _ _ _ _ _ _).mpr ⟨ha, fun r hr => ?_⟩, fun x h => ?_⟩
    · obtain ⟨hfixed, hp, hrest⟩ := hrecord r hr
      exact ⟨hfixed, hp, fun l h => (hrest l h).1⟩
    · obtain ⟨r, hr, l, hl, hx⟩ := (answerLoop_some _ _ _ _ _ _ _ _).mp h
      exact ((hrecord r hr).2.2 l hl).2 x hx

theorem answerLoop_escapes (a pos : ℕ) (h : AnswersLead addresses cnames sizeofULONG d a pos) :
    ∃ needed, ∀ fuel, needed ≤ fuel → ∀ lists dot, Wants lists addresses cnames →
      ¬ AnswersContained d.length (answerLoop packet sizeofULONG fuel a pos lists dot) := by
  induction h with
  | past pos h =>
    refine ⟨0, fun fuel _ lists dot hw hc => ?_⟩
    have := hc.2 (lists, pos) rfl
    exact absurd this (Nat.not_le_of_lt h)
  | owner a pos h =>
    obtain ⟨needed, hn⟩ := decodeDotStr_escapes packet d hd (some 0) pos h
    refine ⟨needed, fun fuel hf lists dot hw hc => hn fuel hf dot ?_⟩
    exact ((answerLoop_below _ _ _ _ _ _ _ _).mp hc.1).1
  | fixed a pos len h hl =>
    obtain ⟨needed, hn⟩ := decodeDotStr_takes packet d hd (some 0) pos len h
    refine ⟨needed, fun fuel hf lists dot hw hc => ?_⟩
    obtain ⟨dot', hr⟩ := hn fuel hf dot
    have := (((answerLoop_below _ _ _ _ _ _ _ _).mp hc.1).2 _ hr).1
    exact absurd this (Nat.not_le_of_lt hl)
  | address a pos len h hw ht hl =>
    obtain ⟨needed, hn⟩ := decodeDotStr_takes packet d hd (some 0) pos len h
    refine ⟨needed, fun fuel hf lists dot hwants hc => ?_⟩
    obtain ⟨dot', hr⟩ := hn fuel hf dot
    obtain ⟨hfixed, hp, -⟩ := ((answerLoop_below _ _ _ _ _ _ _ _).mp hc.1).2 _ hr
    have htype := get16At_holds _ _ _ (hd.within _ _ ht)
    rw [pushAnswer, if_pos ⟨htype, hwants.1.trans hw⟩, Run.all_bind, readOctets_below] at hp
    simp only at hfixed hp
    omega
  | target a pos len h hw ht hl =>
    obtain ⟨needed, hn⟩ := decodeDotStr_takes packet d hd (some 0) pos len h
    obtain ⟨needed', hx⟩ := decodeDotStr_escapes packet d hd (some 0) _ hl
    refine ⟨max needed needed', fun fuel hf lists dot hwants hc => ?_⟩
    obtain ⟨dot', hr⟩ := hn fuel (by omega) dot
    obtain ⟨-, hp, -⟩ := ((answerLoop_below _ _ _ _ _ _ _ _).mp hc.1).2 _ hr
    have htype := get16At_holds _ _ _ (hd.within _ _ ht)
    have hA : ¬ (get16At packet (pos+len) = dnsTypeA ∧ lists.pveculIPList.isSome) :=
      fun h => absurd (h.1.symm.trans htype) (by decide)
    rw [pushAnswer, if_neg hA, if_pos ⟨htype, hwants.2.trans hw⟩, Run.all_andThen] at hp
    exact hx fuel (by omega) _ hp.1
  | next a pos len t datalen h ht hdl hc rest ih =>
    obtain ⟨needed, ih⟩ := ih
    obtain ⟨needed', hn⟩ := decodeDotStr_takes packet d hd (some 0) pos len h
    obtain ⟨needed'', hp⟩ := pushAnswer_goes_on packet d hd addresses cnames sizeofULONG _ t hc
    refine ⟨max needed (max needed' needed''), fun fuel hf lists dot hwants hcon => ?_⟩
    obtain ⟨dot', hr⟩ := hn fuel (by omega) dot
    obtain ⟨l, hl, hw'⟩ := hp fuel (by omega) lists dot' hwants
    have htype := get16At_holds _ _ _ (hd.within _ _ ht)
    have hlen := get16At_holds _ _ _ (hd.within _ _ hdl)
    have hrest := answersContained_rest packet sizeofULONG fuel a pos d.length lists dot _ l hr
      (by rw [htype]; exact hl) hcon
    rw [hlen] at hrest
    exact ih fuel (by omega) l.1 l.2 hw' hrest

end Answers

/-! ## The whole datagram -/

/-- Nothing is read behind the first `n` octets, and what is accepted ends there. -/
structure Contained (n : ℕ) (run : Run Access Received) : Prop where
  reads : run.All (Access.Below n)
  ends : ∀ lists pDNSData, run.result = some (.accepted lists pDNSData) → pDNSData ≤ n

section Response
variable (packet : Mem) (d : List UInt8) (hd : Holds packet 0 d) (id : UInt16) (sizeofULONG : ℕ)
  (lists : Lists) (dot : Mem)

theorem contained_ignored (n : ℕ) : Contained n (pure .ignored : Run Access Received) :=
  ⟨Run.all_pure _ _, by intro l p h; cases h⟩

theorem contained_bind {α : Type} (n : ℕ) (r : Run Access α) (a : α) (f : α → Run Access Received)
    (h : r.result = some a) : Contained n (r >>= f) ↔ r.All (Access.Below n) ∧ Contained n (f a) := by
  constructor
  · intro hc
    have hr := (Run.all_bind _ _ _).mp hc.reads
    refine ⟨hr.1, hr.2 a h, fun l p hp => hc.ends l p ?_⟩
    rw [Run.result_bind, h]
    exact hp
  · rintro ⟨ha, hc⟩
    refine ⟨(Run.all_bind _ _ _).mpr ⟨ha, fun b hb => ?_⟩, fun l p hp => hc.ends l p ?_⟩
    · cases h.symm.trans hb
      exact hc.reads
    · rw [Run.result_bind, h] at hp
      exact hp

theorem contained_sections (n : ℕ) (sections : Run Access (Option (Lists × ℕ))) :
    Contained n (do
      let r ← sections
      return r.elim .refused fun a => .accepted a.1 a.2) ↔ AnswersContained n sections := by
  constructor
  · intro hc
    have hr := (Run.all_bind _ _ _).mp hc.reads
    refine ⟨hr.1, fun x hx => hc.ends x.1 x.2 ?_⟩
    rw [Run.result_bind, hx]
    rfl
  · rintro ⟨ha, he⟩
    refine ⟨(Run.all_bind _ _ _).mpr ⟨ha, fun _ _ => Run.all_pure _ _⟩, fun l p hp => ?_⟩
    rw [Run.result_bind] at hp
    obtain ⟨x, hx, hp⟩ := Option.bind_eq_some_iff.mp hp
    cases x with
    | none => cases hp
    | some x =>
      cases hp
      exact he x hx

theorem parseResponse_contained_iff (fuel : ℕ) :
    Contained d.length (parseResponse packet sizeofULONG fuel id lists dot) ↔
      1 < d.length ∧ (get16At packet 0 = id → 3 < d.length ∧
        (get16At packet 2 &&& 0xfb7f = 0x8100 → 7 < d.length ∧
          (0 < (get16At packet 6).toNat → AnswersContained d.length
            ((questionLoop packet fuel (get16At packet 4).toNat hdrOffset dot).andThen fun q =>
              answerLoop packet sizeofULONG fuel (get16At packet 6).toNat q.1 lists q.2)))) := by
  rw [parseResponse, contained_bind _ _ _ _ (result_read16 packet 0), read16_below]
  apply and_congr_right'
  by_cases hid : get16At packet 0 = id
  · rw [if_pos hid, contained_bind _ _ _ _ (result_read16 packet 2), read16_below]
    simp only [hid, true_implies]
    apply and_congr_right'
    by_cases hf : get16At packet 2 &&& 0xfb7f = 0x8100
    · rw [if_pos hf, contained_bind _ _ _ _ (result_read16 packet 4), read16_below,
        contained_bind _ _ _ _ (result_read16 packet 6), read16_below]
      simp only [hf, true_implies]
      by_cases ha : 0 < (get16At packet 6).toNat
      · rw [if_pos ha, contained_sections]
        simp only [ha, true_implies]
        exact ⟨fun h => h.2, fun h => ⟨by omega, h⟩⟩
      · rw [if_neg ha]
        simp only [ha, false_implies, contained_ignored, and_true]
        omega
    · rw [if_neg hf]
      simp only [hf, false_implies, contained_ignored]
  · rw [if_neg hid]
    simp only [hid, false_implies, contained_ignored]

theorem answersContained_andThen {α : Type} (n : ℕ) (r : Run Access (Option α))
    (f : α → Run Access (Option (Lists × ℕ))) :
    AnswersContained n (r.andThen f) ↔ r.All (Access.Below n) ∧
      ∀ a, r.result = some (some a) → AnswersContained n (f a) := by
  rw [AnswersContained, Run.all_andThen]
  constructor
  · rintro ⟨⟨ha, hf⟩, he⟩
    exact ⟨ha, fun a hr => ⟨hf a hr, fun x hx =>
      he x ((Run.result_andThen_some _ _ _).mpr ⟨a, hr, hx⟩)⟩⟩
  · rintro ⟨ha, hf⟩
    refine ⟨⟨ha, fun a hr => (hf a hr).1⟩, fun x hx => ?_⟩
    obtain ⟨a, hr, hax⟩ := (Run.result_andThen_some _ _ _).mp hx
    exact (hf a hr).2 x hax

include hd

theorem prefix_id (h : put16 id <+: d) : get16At packet 0 = id :=
  get16At_holds _ _ _ (hd.within 0 _ h)

theorem prefix_flags (fl : UInt16) (h : put16 id ++ put16 fl <+: d) :
    get16At packet 0 = id ∧ get16At packet 2 = fl := by
  have hh := hd.within 0 _ h
  rw [holds_append] at hh
  exact ⟨get16At_holds _ _ _ hh.1, get16At_holds _ _ _ hh.2⟩

theorem announces_iff (q a : UInt16) :
    Announces id d q a ↔ 7 < d.length ∧ get16At packet 0 = id ∧
      get16At packet 2 &&& 0xfb7f = 0x8100 ∧ get16At packet 4 = q ∧ get16At packet 6 = a ∧
        0 < a.toNat := by
  constructor
  · rintro ⟨⟨fl, h, hf⟩, ha⟩
    have hl := h.length_le
    have hh := hd.within 0 _ h
    rw [holds_append, holds_append, holds_append] at hh
    have hfl : get16At packet 2 = fl := get16At_holds _ _ _ hh.2.1
    exact ⟨hl, get16At_holds _ _ _ hh.1, hfl ▸ hf, get16At_holds _ _ _ hh.2.2.1,
      get16At_holds _ _ _ hh.2.2.2, ha⟩
  · rintro ⟨hl, rfl, hf, rfl, rfl, ha⟩
    refine ⟨⟨get16At packet 2, ?_, hf⟩, ha⟩
    simp only [get16At, put16_get16]
    exact hd.slice_prefix 0 8 hl

/-- All fuels together: the parser stays inside just if nothing leads outside. -/
theorem contained_iff_not_outside (addresses cnames : Bool) (hw : Wants lists addresses cnames) :
    (∀ fuel, Contained d.length (parseResponse packet sizeofULONG fuel id lists dot)) ↔
      ¬ Outside id addresses cnames sizeofULONG d := by
  simp only [parseResponse_contained_iff]
  constructor
  · intro hc ho
    cases ho with
    | id h =>
      have := (hc 0).1
      omega
    | flags h hl =>
      have := ((hc 0).2 (prefix_id packet d hd id h)).1
      omega
    | counts fl h hf hl =>
      obtain ⟨hid, hfl⟩ := prefix_flags packet d hd id fl h
      have := (((hc 0).2 hid).2 (hfl ▸ hf)).1
      omega
    | questions q a h hq =>
      obtain ⟨-, hid, hf, rfl, rfl, ha⟩ := (announces_iff packet d hd id q a).mp h
      obtain ⟨needed, hx⟩ := questionLoop_escapes packet d hd _ _ hq
      have hs := (((hc needed).2 hid).2 hf).2 ha
      exact hx needed (Nat.le_refl _) dot ((answersContained_andThen _ _ _).mp hs).1
    | answers q a e h hq hans =>
      obtain ⟨-, hid, hf, rfl, rfl, ha⟩ := (announces_iff packet d hd id q a).mp h
      obtain ⟨needed, hx⟩ := answerLoop_escapes packet d hd addresses cnames sizeofULONG _ _ hans
      obtain ⟨needed', hr⟩ := questionLoop_at packet d hd _ _ _ hq
      obtain ⟨dot', hr⟩ := hr (max needed needed') (Nat.le_max_right _ _) dot
      have hs := (((hc (max needed needed')).2 hid).2 hf).2 ha
      exact hx _ (Nat.le_max_left _ _) lists dot' hw (((answersContained_andThen _ _ _).mp hs).2 _ hr)
  · intro ho fuel
    have hl : 1 < d.length := Nat.lt_of_not_le fun h => ho (.id (by omega))
    refine ⟨hl, fun hid => ?_⟩
    have hpid : put16 id <+: d := by
      rw [← hid, get16At, put16_get16]
      exact hd.slice_prefix 0 2 hl
    have hl3 : 3 < d.length := Nat.lt_of_not_le fun h => ho (.flags hpid (by omega))
    refine ⟨hl3, fun hf => ?_⟩
    have hpfl : put16 id ++ put16 (get16At packet 2) <+: d := by
      rw [← hid, get16At, get16At, put16_get16, put16_get16]
      exact hd.slice_prefix 0 4 hl3
    have hl7 : 7 < d.length := Nat.lt_of_not_le fun h => ho (.counts _ hpfl hf (by omega))
    refine ⟨hl7, fun ha => ?_⟩
    have han := (announces_iff packet d hd id _ _).mpr ⟨hl7, hid, hf, rfl, rfl, ha⟩
    obtain ⟨hq, he⟩ := questionLoop_contained packet d hd fuel _ hdrOffset dot
      fun h => ho (.questions _ _ han h)
    refine (answersContained_andThen _ _ _).mpr ⟨hq, fun r hr => ?_⟩
    exact answerLoop_contained packet d hd addresses cnames sizeofULONG fuel _ _ lists r.2 hw
      fun h => ho (.answers _ _ _ han (he r hr) h)

end Response

theorem received_contained_iff (id : UInt16) (sizeofULONG : ℕ) (lists : Lists) (dot beyond : Mem)
    (recvbuf : CArray recvbufSize) (d : List UInt8) :
    (∀ fuel, Contained (d.take recvbufSize).length
      (parseResponse (received recvbuf d beyond) sizeofULONG fuel id lists dot)) ↔
      ¬ Outside id lists.pveculIPList.isSome lists.pvecstrCNameList.isSome sizeofULONG
        (d.take recvbufSize) :=
  contained_iff_not_outside _ _ (holds_received recvbuf d beyond) id sizeofULONG lists dot _ _
    ⟨rfl, rfl⟩

def bareHeader : List UInt8 :=
  [0x00, 0x07, 0x81, 0x80, 0x00, 0x00, 0x00, 0x01, 0x00, 0x00, 0x00, 0x00]

theorem bare_header_not_contained :
    ¬ ∀ fuel, Contained 12 (parseResponse (received (CArray.zero recvbufSize) bareHeader fun _ => 0)
      4 fuel 7 ⟨some [], some []⟩ fun _ => 0) := by
  have hh : Announces 7 bareHeader 0 1 :=
    ⟨⟨0x8180, by decide, by decide⟩, by decide⟩
  have hl : AnswersLead true true 4 bareHeader 1 hdrOffset := .owner 0 _ (.missing _ _ (by decide))
  have ho : Outside 7 true true 4 bareHeader := .answers 0 1 hdrOffset hh (.nil _) hl
  intro hc
  exact (contained_iff_not_outside _ bareHeader (holds_received _ bareHeader _) 7 4 _ _ true true
    ⟨rfl, rfl⟩).mp hc ho

end FasterConfig.DnsContained
