import FasterConfig.DnsReply
import FasterConfig.DotStr

/-!
# The question that comes back

The name goes from the wire to text in the resolver library and back to the
wire in `encode_domain`, which knows nothing of escapes. The two cancel on
names of plain octets only: any escape changes the first length octet of its
label, and the empty text of the root becomes two zero octets.
-/

set_option autoImplicit false

namespace FasterConfig.DnsEcho
open FasterConfig.Octets FasterConfig.DomainName FasterConfig.DnsServer FasterConfig.DnsReply
open FasterConfig.DotStr

theorem encodeFrom_last (label rest : List UInt8) (h : 0x2e ∉ rest) :
    encodeFrom label rest = UInt8.ofNat (label ++ rest).length::(label ++ rest) ++ [0] := by
  induction rest generalizing label with
  | nil => simp [encodeFrom]
  | cons c rest ih =>
    have hc : c ≠ 0x2e := fun he => h (by simp [he])
    rw [encodeFrom, if_neg hc, ih _ fun hm => h (by simp [hm])]
    simp

theorem encodeFrom_dot (label s rest : List UInt8) (h : 0x2e ∉ s) :
    encodeFrom label (s ++ 0x2e::rest) =
      UInt8.ofNat (label ++ s).length::(label ++ s) ++ encodeDomain rest := by
  induction s generalizing label with
  | nil => simp [encodeFrom, encodeDomain]
  | cons c s ih =>
    have hc : c ≠ 0x2e := fun he => h (by simp [he])
    rw [List.cons_append, encodeFrom, if_neg hc, ih _ fun hm => h (by simp [hm])]
    simp

theorem encodeDomain_last (s : List UInt8) (h : 0x2e ∉ s) :
    encodeDomain s = UInt8.ofNat s.length::s ++ [0] := by
  simpa [encodeDomain] using encodeFrom_last [] s h

theorem encodeDomain_dot (s rest : List UInt8) (h : 0x2e ∉ s) :
    encodeDomain (s ++ 0x2e::rest) = UInt8.ofNat s.length::s ++ encodeDomain rest := by
  simpa [encodeDomain] using encodeFrom_dot [] s rest h

theorem length_encodeFrom (label name : List UInt8) :
    (encodeFrom label name).length = label.length+name.length+2 := by
  induction name generalizing label with
  | nil => simp [encodeFrom]
  | cons c rest ih =>
    rw [encodeFrom]
    split_ifs
    · simp only [List.length_append, List.length_cons, ih]
      simp
      omega
    · rw [ih]
      simp
      omega

theorem length_encodeDomain (name : List UInt8) : (encodeDomain name).length = name.length+2 := by
  simpa [encodeDomain] using length_encodeFrom [] name

/-! ## Names that survive -/

/-- At least one label and only octets the text form does not escape. -/
def PlainName (ls : List Label) : Prop := ls ≠ [] ∧ ∀ l ∈ ls, ∀ c ∈ l, Plain c

theorem dot_not_mem (l : Label) (h : ∀ c ∈ l, Plain c) : 0x2e ∉ l :=
  fun hm => plain_ne_dot _ (h _ hm) rfl

theorem encodeDomain_joined (ls : List Label) (hne : ls ≠ []) (hd : ∀ l ∈ ls, 0x2e ∉ l) :
    encodeDomain (joined ls) = wire ls := by
  induction ls with
  | nil => exact absurd rfl hne
  | cons l ls ih =>
    have hl := hd l (by simp)
    cases ls with
    | nil =>
      rw [joined, encodeDomain_last l hl, wire, wireLabels_cons, wireLabels_nil, List.append_nil]
    | cons m ms =>
      rw [joined_cons, encodeDomain_dot l _ hl,
        ih (List.cons_ne_nil m ms) fun k hk => hd k (List.mem_cons_of_mem l hk), wire, wire,
        wireLabels_cons l, List.append_assoc]

theorem encodeDomain_plain (ls : List Label) (h : PlainName ls) : encodeDomain (text ls) = wire ls := by
  rw [text_plain ls h.2]
  exact encodeDomain_joined ls h.1 fun l hl => dot_not_mem l (h.2 l hl)

/-! ## Names that do not -/

theorem digit_ne_dot (n : ℕ) (h : n < 10) : digit n ≠ 0x2e := by
  intro he
  have ht : (0x30+n)%256 = 0x2e := by simpa [digit, UInt8.toNat_ofNat'] using congrArg UInt8.toNat he
  omega

theorem dot_mem_escape (c : UInt8) (h : 0x2e ∈ escape c) : c = 0x2e := by
  have hc := c.toNat_lt
  unfold escape at h
  split_ifs at h with hs hp
  · simpa [eq_comm] using h
  · simpa [eq_comm] using h
  · simp only [List.mem_cons, List.not_mem_nil, or_false] at h
    rcases h with h | h | h | h
    · exact absurd h (by decide)
    · exact absurd h.symm (digit_ne_dot _ (by omega))
    · exact absurd h.symm (digit_ne_dot _ (by omega))
    · exact absurd h.symm (digit_ne_dot _ (by omega))

theorem dot_mem_escapeLabel (l : Label) (h : 0x2e ∈ escapeLabel l) : 0x2e ∈ l := by
  obtain ⟨c, hc, he⟩ := List.mem_flatMap.mp h
  exact dot_mem_escape c he ▸ hc

/-- A dot inside a label ends the first label on the wire too early. -/
theorem encodeDomain_inner_dot (l : Label) (tail : List UInt8) (hd : 0x2e ∈ l) :
    ∃ s rest, 0x2e ∉ s ∧ s.length ≤ labelWidth l ∧
      encodeDomain (escapeLabel l ++ tail) = UInt8.ofNat s.length::s ++ rest := by
  have hm : (0x2e : UInt8) ∈ escapeLabel l :=
    List.mem_flatMap.mpr ⟨0x2e, hd, by simp [escape, special_dot]⟩
  obtain ⟨s, r, hsr, hs⟩ := List.eq_append_cons_of_mem hm
  refine ⟨s, encodeDomain (r ++ tail), hs, ?_, ?_⟩
  · rw [← length_escapeLabel, hsr, List.length_append]
    omega
  · rw [hsr, List.append_assoc, List.cons_append, encodeDomain_dot s _ hs]

def textTail : List Label → List UInt8
  | [] => []
  | m::ms => 0x2e::text (m::ms)

theorem text_cons (l : Label) (ls : List Label) : text (l::ls) = escapeLabel l ++ textTail ls := by
  cases ls <;> simp [text, textTail]

theorem first_piece (l p : List UInt8) (ls : List Label) (t rest b e : List UInt8)
    (he : e = UInt8.ofNat p.length::p ++ rest) (hl : l.length < 256) (hp : p.length < 256)
    (h : wireLabels (l::ls) ++ 0::t <+: e ++ b) :
    l.length = p.length ∧ l ++ (wireLabels ls ++ 0::t) <+: p ++ (rest ++ b) := by
  rw [he, wireLabels_cons] at h
  simp only [List.cons_append, List.append_assoc] at h
  obtain ⟨h1, h2⟩ := List.cons_prefix_cons.mp h
  exact ⟨ofNat_inj_of_lt _ _ hl hp h1, h2⟩

theorem plain_of_prefix (ls : List Label) (hv : ∀ l ∈ ls, ValidLabel l) (t b : List UInt8)
    (h : wireLabels ls ++ 0::t <+: encodeDomain (text ls) ++ b) :
    ∀ l ∈ ls, ∀ c ∈ l, Plain c := by
  induction ls with
  | nil => simp
  | cons l ls ih =>
    have hl := hv l (by simp)
    have hpos := hl.pos
    have hle := hl.le
    have hw := labelWidth_le l
    rw [text_cons] at h
    by_cases hd : 0x2e ∈ l
    · obtain ⟨s, rest, hs, hlen, he⟩ := encodeDomain_inner_dot l (textTail ls) hd
      obtain ⟨hn, h2⟩ := first_piece l s ls t rest b _ he (by omega) (by omega) h
      -- same length octet, so the label would have to be the dotless piece itself
      obtain ⟨k, hk⟩ := h2
      rw [List.append_assoc] at hk
      exact absurd ((List.append_inj hk hn).1 ▸ hd) hs
    · have hs : 0x2e ∉ escapeLabel l := fun hm => hd (dot_mem_escapeLabel l hm)
      have hk : ∃ rest, encodeDomain (escapeLabel l ++ textTail ls) =
          UInt8.ofNat (escapeLabel l).length::escapeLabel l ++ rest ∧
          (ls ≠ [] → rest = encodeDomain (text ls)) := by
        cases ls with
        | nil => exact ⟨[0], by simpa [textTail] using encodeDomain_last _ hs, fun hn => absurd rfl hn⟩
        | cons m ms => exact ⟨_, encodeDomain_dot _ _ hs, fun _ => rfl⟩
      obtain ⟨rest, he, hr⟩ := hk
      have hlen := length_escapeLabel l
      obtain ⟨hn, h2⟩ := first_piece l (escapeLabel l) ls t rest b _ he (by omega) (by omega) h
      rw [hlen] at hn
      have hp := plain_of_labelWidth l hn.symm
      intro k hk
      rcases List.mem_cons.mp hk with rfl | hk
      · exact hp
      · have hne : ls ≠ [] := fun he => by simp [he] at hk
        rw [escapeLabel_plain l hp, List.prefix_append_right_inj, hr hne] at h2
        exact ih (fun m hm => hv m (by simp [hm])) h2 k hk

/-! ## Echo -/

structure Echoes (q : Query) (out : List UInt8) : Prop where
  id : out.take 2 = put16 q.id
  question : (out.drop 12).take q.question.length = q.question

theorem drop_assemble (transId : UInt16) (name : List UInt8) (tType tClass : UInt16) (r : Answer) :
    (assemble transId name tType tClass r).drop 12 =
      encodeDomain name ++ (encodeQueryTypyAndClass tType tClass ++ r.data) := rfl

theorem assemble_echoes_iff (q : Query) (r : Answer) :
    Echoes q (assemble q.id (text q.qname) q.qtype nsCIn r) ↔ PlainName q.qname := by
  constructor
  · intro h
    have hq : q.question <+: encodeDomain (text q.qname) ++
        (encodeQueryTypyAndClass q.qtype nsCIn ++ r.data) :=
      List.prefix_iff_eq_take.mpr (by rw [← drop_assemble]; exact h.question.symm)
    have hw : q.question = wireLabels q.qname ++ 0::(put16 q.qtype ++ put16 nsCIn) := by
      simp [Query.question, wire]
    rw [hw] at hq
    refine ⟨fun hroot => ?_, plain_of_prefix _ q.valid.labels _ _ hq⟩
    -- the two zero octets of the root push type and class one place to the right
    rw [hroot] at hq
    obtain ⟨k, hk⟩ := hq
    simp [text, encodeDomain, encodeFrom, encodeQueryTypyAndClass, put16, nsCIn] at hk
  · intro h
    refine ⟨rfl, ?_⟩
    have hq : q.question = wire q.qname ++ encodeQueryTypyAndClass q.qtype nsCIn := by
      simp [Query.question, encodeQueryTypyAndClass]
    rw [drop_assemble, encodeDomain_plain _ h, ← List.append_assoc, ← hq, List.take_left]

/-- The question comes back unchanged exactly for names with a label and without
any octet that the text form escapes. -/
theorem reply_echoes_iff (spoofAddr : InAddr) (s : State) (q : Query) :
    (∃ out, reply spoofAddr s q.datagram = some out ∧ Echoes q out) ↔ PlainName q.qname := by
  rw [← assemble_echoes_iff q (prepareReply spoofAddr q.qtype)]
  constructor
  · rintro ⟨out, ho, he⟩
    rw [reply_query] at ho
    exact Option.some.inj ho ▸ he
  · exact fun h => ⟨_, reply_query spoofAddr s q, h⟩

theorem root_valid : ValidName [] := ⟨by simp, by decide⟩

def rootQuery : Query := .ask [] 2 root_valid

theorem spaced_valid : ValidName [[0x61, 0x20, 0x62]] where
  labels := by
    intro l hl
    rw [List.mem_singleton.mp hl]
    exact ⟨by decide, by decide⟩
  total := by decide

def spacedQuery : Query := .ask [[0x61, 0x20, 0x62]] 1 spaced_valid

theorem root_and_space_not_echoed :
    (¬ ∃ out, reply ⟨172, 31, 1, 2⟩ State.start rootQuery.datagram = some out ∧ Echoes rootQuery out) ∧
      ¬ ∃ out, reply ⟨172, 31, 1, 2⟩ State.start spacedQuery.datagram = some out ∧
        Echoes spacedQuery out := by
  constructor
  · rintro ⟨out, ho, he⟩
    rw [reply_query] at ho
    obtain rfl := Option.some.inj ho
    exact ((assemble_echoes_iff rootQuery _).mp he).1 rfl
  · rintro ⟨out, ho, he⟩
    rw [reply_query] at ho
    obtain rfl := Option.some.inj ho
    have hp := ((assemble_echoes_iff spacedQuery _).mp he).2 [0x61, 0x20, 0x62] (by simp [spacedQuery, Query.ask])
    exact absurd (hp 0x20 (by simp)) (by decide)

end FasterConfig.DnsEcho
