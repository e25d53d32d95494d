import FasterConfig.DnsQuestions
import FasterConfig.Strings

/-!
# The client's request

The name is encoded into a block from `malloc`, whose length is then taken
with `strlen`. A name without labels leaves the block as it was, a label whose
length is a multiple of 256 ends the string with its length octet, and nothing
compares a length with 63 or 255.
-/

set_option autoImplicit false

namespace FasterConfig.DnsRequest
open FasterConfig.Octets FasterConfig.DomainName FasterConfig.Memory FasterConfig.Strings
open FasterConfig.DnsQuery FasterConfig.DnsQuestions

def dnsTypeSize : ℕ := 2
def dnsClassSize : ℕ := 2
def maxDomainnameLen : ℕ := 255
def dnsPacketMaxSize : ℕ := hdrOffset+maxDomainnameLen+dnsTypeSize+dnsClassSize

def ushort (n : ℕ) : ℕ := n%65536

inductive EncodeResult where
  | refused
  | overrun
  | encoded (szEncodedStr : Text)
  deriving DecidableEq, Repr

/-- `sprintf(szEncodedStr + nEncodedStrLen, "%c%s", nLabelLen, pLabel)` with its NUL. -/
def encodeLabel (s : Text × ℕ) (pLabel : Text) : Text × ℕ :=
  let nLabelLen := ushort pLabel.length
  if nLabelLen ≠ 0 then
    (memcpy s.1 s.2 (UInt8.ofNat nLabelLen::pLabel ++ [0]), ushort (s.2+(nLabelLen+1)))
  else s

/-- `overrun`: the copy of the string is longer than the array allocated for it. -/
def encodeDotStr (szDotStr szEncodedStr : Text) (nEncodedStrSize : ℕ) : EncodeResult :=
  let nDotStrLen := ushort szDotStr.length
  if nEncodedStrSize < nDotStrLen+2 then .refused
  else if nDotStrLen < szDotStr.length then .overrun
  else .encoded ((strtok 0x2e szDotStr).foldl encodeLabel (szEncodedStr, 0)).1

/-- `extent` is where the last octet written into the packet array ends. -/
inductive SendResult where
  | refused
  | overrun
  | sent (packet : Text) (extent : ℕ)
  deriving DecidableEq, Repr

/-- The header as it lies in memory. The ID is not converted, so here it stands for its two octets
there, the first one being the upper one of the number. -/
def requestHeader (usCurrentProcID : UInt16) : Text :=
  encodeHeader ⟨usCurrentProcID, 0x0100, 0x0001, 0x0000, 0x0000, 0x0000⟩

/-- The block is where `heap` starts, and `behind` octets behind it there is a NUL. -/
def sendDNSRequest (usCurrentProcID : UInt16) (szDomainName : Text) (heap : Mem) (behind : ℕ) :
    SendResult :=
  let szDNSPacket := memcpy (calloc dnsPacketMaxSize) 0 (requestHeader usCurrentProcID)
  let nDomainNameLen := ushort szDomainName.length
  let szEncodedDomainName := slice heap 0 (nDomainNameLen+2+behind)
  match encodeDotStr szDomainName szEncodedDomainName (ushort (nDomainNameLen+2)) with
  | .refused => .refused
  | .overrun => .overrun
  | .encoded szEncodedDomainName =>
    let qname := cString szEncodedDomainName ++ [0]
    let nEncodedDomainNameLen := ushort qname.length
    let szDNSPacket := memcpy szDNSPacket hdrOffset (qname.take nEncodedDomainNameLen)
    let szDNSPacket := memcpy szDNSPacket (hdrOffset+nEncodedDomainNameLen) (put16 0x0001)
    let szDNSPacket :=
      memcpy szDNSPacket (hdrOffset+nEncodedDomainNameLen+dnsTypeSize) (put16 0x0001)
    let nDNSPacketSize := ushort (hdrOffset+nEncodedDomainNameLen+dnsTypeSize+dnsClassSize)
    .sent (szDNSPacket.take nDNSPacketSize)
      (hdrOffset+nEncodedDomainNameLen+dnsTypeSize+dnsClassSize)

/-! ## The encoded block -/

/-- The labels in front of the first one whose length octet is zero. -/
def counted (ls : List Label) : List Label := ls.takeWhile fun l => l.length%256 ≠ 0

theorem length_counted (ls : List Label) :
    (wireLabels (counted ls)).length ≤ (wireLabels ls).length := by
  induction ls with
  | nil => exact Nat.le_refl _
  | cons l ls ih =>
    rw [counted, List.takeWhile_cons]
    by_cases h0 : l.length%256 = 0
    · rw [if_neg (by simpa using h0)]
      exact Nat.zero_le _
    · rw [if_pos (by simpa using h0), wireLabels_cons, wireLabels_cons, List.length_append,
        List.length_append]
      exact Nat.add_le_add_left ih _

theorem encodeLabel_eq (done rest : Text) (l : Label) (hl : l ≠ [])
    (h : done.length+l.length+1 < 65536) :
    encodeLabel (done ++ rest, done.length) l =
      (done ++ (UInt8.ofNat l.length::l) ++ 0::rest.drop (l.length+2),
        (done ++ (UInt8.ofNat l.length::l)).length) := by
  have hpos := List.length_pos_iff.mpr hl
  have hlen : ushort l.length = l.length := Nat.mod_eq_of_lt (by omega)
  have hsum : ushort (done.length+(l.length+1)) = done.length+(l.length+1) :=
    Nat.mod_eq_of_lt (by omega)
  simp only [encodeLabel, hlen, hsum]
  rw [if_pos (by omega), memcpy_append, List.length_append, List.length_append, List.length_cons]
  simp only [List.append_assoc, List.cons_append, List.nil_append, List.length_singleton]

theorem encodeLabels_eq (ls : List Label) (hn : ∀ l ∈ ls, l ≠ []) (done rest : Text)
    (h : done.length+(wireLabels ls).length < 65536) :
    (ls.foldl encodeLabel (done ++ 0::rest, done.length)).1 =
      done ++ wireLabels ls ++ 0::rest.drop (wireLabels ls).length := by
  induction ls generalizing done rest with
  | nil => simp
  | cons l ls ih =>
    rw [wireLabels_cons, List.length_append, List.length_cons] at h
    rw [List.foldl_cons, encodeLabel_eq done _ l (hn l (by simp)) (by omega), List.drop_succ_cons,
      ih (fun k hk => hn k (by simp [hk])) _ _ (by rw [List.length_append, List.length_cons]; omega),
      List.drop_drop, wireLabels_cons, List.length_append, List.length_cons, List.append_assoc done]

theorem encodeDotStr_written (s szEncodedStr : Text) (hs : s.length < 65534)
    (hl : strtok 0x2e s ≠ []) (nEncodedStrSize : ℕ) (hsize : s.length+2 ≤ nEncodedStrSize) :
    encodeDotStr s szEncodedStr nEncodedStrSize =
      .encoded (memcpy szEncodedStr 0 (wire (strtok 0x2e s))) := by
  have hlen : ushort s.length = s.length := Nat.mod_eq_of_lt (by omega)
  have hw : (wireLabels (strtok 0x2e s)).length ≤ s.length+1 := by
    rw [length_wireLabels]
    exact length_strtok 0x2e s
  have hn : ∀ l ∈ strtok 0x2e s, l ≠ [] := fun l h => (mem_strtok 0x2e s l h).1
  rw [encodeDotStr, hlen, if_neg (by omega), if_neg (Nat.lt_irrefl _)]
  generalize strtok 0x2e s = ls at *
  cases ls with
  | nil => exact absurd rfl hl
  | cons l ls =>
    rw [wireLabels_cons, List.length_append, List.length_cons] at hw
    have h1 := encodeLabel_eq [] szEncodedStr l (hn l (by simp)) (by simp; omega)
    have hm := memcpy_append [] szEncodedStr (wire (l::ls))
    simp only [List.nil_append, List.length_nil] at h1 hm
    rw [List.foldl_cons, h1, encodeLabels_eq ls (fun k hk => hn k (by simp [hk])) _ _
      (by rw [List.length_cons]; omega), hm, wire, wireLabels_cons, List.drop_drop]
    simp only [List.append_assoc, List.singleton_append, List.length_append, List.length_cons,
      List.length_nil]
    congr 5
    omega

theorem encodeDotStr_labels (s szEncodedStr : Text) (hs : s.length < 65534)
    (hl : strtok 0x2e s ≠ []) :
    ∃ r, encodeDotStr s szEncodedStr (ushort (ushort s.length+2)) =
      .encoded (wireLabels (strtok 0x2e s) ++ 0::r) := by
  have hlen : ushort s.length = s.length := Nat.mod_eq_of_lt (by omega)
  have hsize : ushort (s.length+2) = s.length+2 := Nat.mod_eq_of_lt (by omega)
  have hm := memcpy_append [] szEncodedStr (wire (strtok 0x2e s))
  rw [List.nil_append, List.nil_append, List.length_nil, wire, List.append_assoc] at hm
  rw [hlen, hsize, encodeDotStr_written s szEncodedStr hs hl _ (Nat.le_refl _), wire, hm]
  exact ⟨_, rfl⟩

theorem cString_wireLabels (ls : List Label) (h : ∀ l ∈ ls, 0 ∉ l) (r : Text) :
    cString (wireLabels ls ++ 0::r) = wireLabels (counted ls) := by
  induction ls with
  | nil => rfl
  | cons l ls ih =>
    have hz : UInt8.ofNat l.length = 0 ↔ l.length%256 = 0 := by
      rw [← UInt8.toNat_inj, UInt8.toNat_ofNat']
      rfl
    have hrest := ih fun k hk => h k (by simp [hk])
    rw [cString] at hrest ⊢
    simp only [counted, wireLabels_cons, List.cons_append, List.takeWhile_cons] at hrest ⊢
    by_cases h0 : l.length%256 = 0
    · rw [if_neg (by simpa using hz.mpr h0), if_neg (by simpa using h0)]
      rfl
    · rw [if_pos (by simpa using mt hz.mp h0), if_pos (by simpa using h0), List.append_assoc,
        List.takeWhile_append_of_pos, hrest]
      · rfl
      · intro c hc
        exact decide_eq_true fun he => h l (by simp) (he ▸ hc)

/-! ## The packet -/

/-- One question for an address, with a name of at most 255 octets. -/
def IsQuery (id : UInt16) (packet : Text) : Prop :=
  ∃ ls, ValidName ls ∧
    packet = encodeHeader ⟨id, 0x0100, 1, 0, 0, 0⟩ ++ (wire ls ++ (put16 1 ++ put16 1))

/-- Refused, or a query that the packet array has room for. -/
def WellSent (id : UInt16) : SendResult → Prop
  | .refused => True
  | .overrun => False
  | .sent packet extent =>
    packet.length ≤ dnsPacketMaxSize ∧ extent ≤ dnsPacketMaxSize ∧ IsQuery id packet

theorem sent_extent (id : UInt16) (s e : Text) (heap : Mem) (behind : ℕ)
    (h : encodeDotStr s (slice heap 0 (ushort s.length+2+behind)) (ushort (ushort s.length+2)) =
      .encoded e) :
    ∃ packet, sendDNSRequest id s heap behind = .sent packet (ushort ((cString e).length+1)+16) := by
  simp only [sendDNSRequest, h, hdrOffset, dnsTypeSize, dnsClassSize, List.length_append,
    List.length_singleton, SendResult.sent.injEq]
  exact ⟨_, rfl, by omega⟩

theorem sent_eq (id : UInt16) (s e : Text) (heap : Mem) (behind : ℕ)
    (h : encodeDotStr s (slice heap 0 (ushort s.length+2+behind)) (ushort (ushort s.length+2)) =
      .encoded e) (he : (cString e).length < 255) :
    sendDNSRequest id s heap behind =
      .sent (requestHeader id ++ ((cString e ++ [0]) ++ (put16 1 ++ put16 1)))
        ((cString e).length+17) := by
  simp only [sendDNSRequest, h]
  generalize hq : cString e ++ [0] = q
  have hlen : q.length = (cString e).length+1 := by
    rw [← hq, List.length_append, List.length_singleton]
  have hu : ushort q.length = q.length := Nat.mod_eq_of_lt (by omega)
  have hp : ushort (hdrOffset+q.length+dnsTypeSize+dnsClassSize) =
      hdrOffset+q.length+dnsTypeSize+dnsClassSize := by
    apply Nat.mod_eq_of_lt
    simp only [hdrOffset, dnsTypeSize, dnsClassSize]
    omega
  simp only [hu, hp, List.take_length, SendResult.sent.injEq]
  constructor
  · generalize hd1 : memcpy (calloc dnsPacketMaxSize) 0 (requestHeader id) = d1
    generalize hd2 : memcpy d1 hdrOffset q = d2
    generalize hd3 : memcpy d2 (hdrOffset+q.length) (put16 1) = d3
    have h1 : hdrOffset ≤ d1.length := by
      rw [← hd1, length_memcpy _ _ _ (Nat.zero_le _)]
      exact Nat.le_max_right _ _
    have h2 : hdrOffset+q.length ≤ d2.length := by
      rw [← hd2, length_memcpy _ _ _ h1]
      exact Nat.le_max_right _ _
    have h3 : hdrOffset+q.length+dnsTypeSize ≤ d3.length := by
      rw [← hd3, length_memcpy _ _ _ h2]
      exact Nat.le_max_right _ _
    rw [take_memcpy d3 (put16 1) _ (hdrOffset+q.length+dnsTypeSize+dnsClassSize) h3 rfl, ← hd3,
      take_memcpy d2 (put16 1) _ (hdrOffset+q.length+dnsTypeSize) h2 rfl, ← hd2,
      take_memcpy d1 q _ (hdrOffset+q.length) h1 rfl, ← hd1,
      take_memcpy _ (requestHeader id) 0 hdrOffset (Nat.zero_le _) rfl, List.take_zero,
      List.nil_append]
    simp only [List.append_assoc]
  · simp only [hdrOffset, dnsTypeSize, dnsClassSize]
    omega

theorem wellSent_iff (id : UInt16) (s e : Text) (heap : Mem) (behind : ℕ)
    (h : encodeDotStr s (slice heap 0 (ushort s.length+2+behind)) (ushort (ushort s.length+2)) =
      .encoded e) (he : (cString e).length+1 < 65536) :
    WellSent id (sendDNSRequest id s heap behind) ↔ ∃ ls, ValidName ls ∧ cString e = wireLabels ls := by
  constructor
  · intro hw
    obtain ⟨packet, hp⟩ := sent_extent id s e heap behind h
    rw [hp, ushort, Nat.mod_eq_of_lt he] at hw
    have hx := hw.2.1
    simp only [dnsPacketMaxSize, hdrOffset, maxDomainnameLen, dnsTypeSize, dnsClassSize] at hx
    have hs := sent_eq id s e heap behind h (by omega)
    rw [hp, SendResult.sent.injEq] at hs
    obtain ⟨ls, hv, hpacket⟩ := hw.2.2
    rw [hs.1] at hpacket
    have hbody := List.append_cancel_left hpacket
    have hname := List.append_cancel_right hbody
    exact ⟨ls, hv, List.append_cancel_right hname⟩
  · rintro ⟨ls, hv, hn⟩
    have ht := hv.total
    rw [length_wire] at ht
    rw [sent_eq id s e heap behind h (by rw [hn]; omega), hn]
    refine ⟨?_, ?_, ls, hv, rfl⟩
    · simp only [List.length_append, requestHeader, length_encodeHeader, length_put16,
        List.length_singleton, dnsPacketMaxSize, hdrOffset, maxDomainnameLen, dnsTypeSize,
        dnsClassSize]
      omega
    · simp only [dnsPacketMaxSize, hdrOffset, maxDomainnameLen, dnsTypeSize, dnsClassSize]
      omega

/-! ## Which names are sent well -/

/-- Refused, or there are labels and those that are counted make a name. -/
def Sendable (s : Text) : Prop :=
  65534 ≤ ushort s.length ∨
    (s.length < 65534 ∧ strtok 0x2e s ≠ [] ∧ (∀ l ∈ counted (strtok 0x2e s), l.length ≤ 63) ∧
      (wireLabels (counted (strtok 0x2e s))).length ≤ 254)

instance (s : Text) : Decidable (Sendable s) := inferInstanceAs (Decidable (_ ∨ _))

theorem encodeDotStr_refused_iff (s szEncodedStr : Text) :
    encodeDotStr s szEncodedStr (ushort (ushort s.length+2)) = .refused ↔
      65534 ≤ ushort s.length := by
  have hm : ushort s.length < 65536 := Nat.mod_lt _ (by decide)
  have hlt : ushort (ushort s.length+2) < ushort s.length+2 ↔ 65534 ≤ ushort s.length := by
    generalize ushort s.length = n at *
    rw [ushort]
    omega
  rw [← hlt, encodeDotStr]
  split_ifs with h1 h2 <;> simp [h1]

theorem encodeDotStr_overrun (s szEncodedStr : Text) (h : ushort s.length < 65534)
    (hl : 65534 ≤ s.length) :
    encodeDotStr s szEncodedStr (ushort (ushort s.length+2)) = .overrun := by
  have hsize : ushort (ushort s.length+2) = ushort s.length+2 := Nat.mod_eq_of_lt (by omega)
  rw [encodeDotStr, hsize, if_neg (Nat.lt_irrefl _), if_pos (by omega)]

theorem encodeDotStr_empty (s szEncodedStr : Text) (hs : s.length < 65534)
    (hl : strtok 0x2e s = []) :
    encodeDotStr s szEncodedStr (ushort (ushort s.length+2)) = .encoded szEncodedStr := by
  have hlen : ushort s.length = s.length := Nat.mod_eq_of_lt (by omega)
  have hsize : ushort (s.length+2) = s.length+2 := Nat.mod_eq_of_lt (by omega)
  rw [encodeDotStr, hlen, hsize, if_neg (Nat.lt_irrefl _), if_neg (Nat.lt_irrefl _), hl]
  rfl

theorem counted_name_iff (ls : List Label) (hn : ∀ l ∈ ls, l ≠ []) :
    (∃ ms, ValidName ms ∧ wireLabels (counted ls) = wireLabels ms) ↔
      (∀ l ∈ counted ls, l.length ≤ 63) ∧ (wireLabels (counted ls)).length ≤ 254 := by
  constructor
  · rintro ⟨ms, hv, he⟩
    have ht := hv.total
    rw [length_wire, ← he] at ht
    have hms : counted ls = ms := by
      apply wireLabels_injective _ _ _ _ he
      · intro l hl
        have := length_lt_wireLabels _ l hl
        omega
      · intro l hl
        have := (hv.labels l hl).le
        omega
    exact ⟨fun l hl => (hv.labels l (hms ▸ hl)).le, by omega⟩
  · rintro ⟨hl, ht⟩
    have hv : ∀ l ∈ counted ls, ValidLabel l := by
      intro l hm
      exact ⟨List.length_pos_iff.mpr (hn l ((List.takeWhile_prefix _).subset hm)), hl l hm⟩
    exact ⟨counted ls, ⟨hv, by rw [length_wire]; omega⟩, rfl⟩

theorem wellSent_labels_iff (id : UInt16) (s : Text) (h0 : 0 ∉ s) (hs : s.length < 65534)
    (hl : strtok 0x2e s ≠ []) (heap : Mem) (behind : ℕ) :
    WellSent id (sendDNSRequest id s heap behind) ↔
      (∀ l ∈ counted (strtok 0x2e s), l.length ≤ 63) ∧
        (wireLabels (counted (strtok 0x2e s))).length ≤ 254 := by
  obtain ⟨r, hr⟩ := encodeDotStr_labels s (slice heap 0 (ushort s.length+2+behind)) hs hl
  have hz : ∀ l ∈ strtok 0x2e s, 0 ∉ l := fun l h hm => h0 ((mem_strtok 0x2e s l h).2 0 hm)
  have hc := cString_wireLabels (strtok 0x2e s) hz r
  have hw := length_strtok 0x2e s
  rw [← length_wireLabels] at hw
  have hle : (cString (wireLabels (strtok 0x2e s) ++ 0::r)).length ≤
      (wireLabels (strtok 0x2e s)).length := by
    rw [hc]
    exact length_counted _
  rw [wellSent_iff id s _ heap behind hr (by omega), hc]
  exact counted_name_iff _ fun l h => (mem_strtok 0x2e s l h).1

def unluckyHeap : Mem := fun i => if i = 0 then 64 else 0

theorem not_wellSent_empty (id : UInt16) (s : Text) (hs : s.length < 65534)
    (hl : strtok 0x2e s = []) : ¬ WellSent id (sendDNSRequest id s unluckyHeap 0) := by
  have he := encodeDotStr_empty s (slice unluckyHeap 0 (ushort s.length+2+0)) hs hl
  have hc : cString (slice unluckyHeap 0 (ushort s.length+2+0)) = [64] := by
    rw [show ushort s.length+2+0 = (ushort s.length+1)+1 from rfl, slice, slice, cString]
    rfl
  rw [wellSent_iff id s _ _ _ he (by rw [hc]; decide), hc]
  rintro ⟨ls, hv, hw⟩
  cases ls with
  | nil => cases hw
  | cons l ls =>
    have hle := (hv.labels l (by simp)).le
    simp only [wireLabels_cons, List.cons_append, List.cons.injEq] at hw
    have := ofNat_inj_of_lt 64 l.length (by omega) (by omega) hw.1
    omega

theorem sendable_of_wellSent (id : UInt16) (s : Text) (h0 : 0 ∉ s)
    (h : ∀ heap behind, WellSent id (sendDNSRequest id s heap behind)) : Sendable s := by
  by_cases hr : 65534 ≤ ushort s.length
  · exact .inl hr
  · by_cases hs : s.length < 65534
    · have hl : strtok 0x2e s ≠ [] := fun hl => not_wellSent_empty id s hs hl (h _ _)
      exact .inr ⟨hs, hl, (wellSent_labels_iff id s h0 hs hl (fun _ => 0) 0).mp (h _ _)⟩
    · have ho := encodeDotStr_overrun s (slice (fun _ => 0) 0 (ushort s.length+2+0)) (by omega)
        (by omega)
      have hw := h (fun _ => 0) 0
      simp only [sendDNSRequest, ho] at hw
      exact hw.elim

theorem wellSent_of_sendable (id : UInt16) (s : Text) (h0 : 0 ∉ s) (h : Sendable s) (heap : Mem)
    (behind : ℕ) : WellSent id (sendDNSRequest id s heap behind) := by
  rcases h with hr | ⟨hs, hl, hc⟩
  · have he := (encodeDotStr_refused_iff s (slice heap 0 (ushort s.length+2+behind))).mpr hr
    simp only [sendDNSRequest, he]
    exact trivial
  · exact (wellSent_labels_iff id s h0 hs hl heap behind).mpr hc

theorem wellSent_iff_sendable (id : UInt16) (szDomainName : {s : Text // 0 ∉ s}) :
    (∀ heap behind, WellSent id (sendDNSRequest id szDomainName heap behind)) ↔
      Sendable szDomainName :=
  ⟨sendable_of_wellSent id _ szDomainName.property,
    wellSent_of_sendable id _ szDomainName.property⟩

theorem overlong_label_sent :
    ¬ ∀ heap behind, WellSent 7 (sendDNSRequest 7 (List.replicate 64 0x61) heap behind) := by
  intro h
  exact absurd (sendable_of_wellSent 7 _ (by decide) h) (by decide +kernel)

end FasterConfig.DnsRequest
