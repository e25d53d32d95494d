import FasterConfig.DnsQuery

/-!
# The loop over the labels of a query

It moves on over labels of up to 63 octets, ends at a zero octet and stays where
it is at any other one. When a label is copied, the block is as large as the
labels in front of it, so that only the first one has room.
-/

set_option autoImplicit false

namespace FasterConfig.DnsQname
open FasterConfig.Octets FasterConfig.DomainName FasterConfig.Memory FasterConfig.DnsQuery

/-- From `p` on there are labels of 1 to 63 octets, each behind its length, and a zero octet. -/
def Uncompressed (buffer : Mem) (p : ℕ) : Prop :=
  ∃ ls, (∀ l ∈ ls, ValidLabel l) ∧ Holds buffer p (wire ls)

theorem not_uncompressed (buffer : Mem) (c : UInt8) (hc : 64 ≤ c.toNat) (ks : List Label)
    (hk : ∀ l ∈ ks, ValidLabel l) (p : ℕ) (h : Holds buffer p (wireLabels ks ++ [c])) :
    ¬ Uncompressed buffer p := by
  rintro ⟨ls, hl, hw⟩
  induction ks generalizing p ls with
  | nil =>
    have hp : buffer p = c := ((holds_cons _ _ _ _).mp h).1
    rw [← hp] at hc
    cases ls with
    | nil =>
      rw [(holds_root _ _).mp hw] at hc
      exact absurd hc (by decide)
    | cons l ls =>
      have hvl := hl l (by simp)
      have hle := hvl.le
      obtain ⟨hlen, -⟩ := label_read buffer p l hvl ((holds_wire_cons _ _ _ _).mp hw).1
      omega
  | cons k ks ih =>
    rw [wireLabels_cons, List.append_assoc, holds_label] at h
    obtain ⟨hlen, h0, -⟩ := label_read buffer p k (hk k (by simp)) h.1
    cases ls with
    | nil => exact h0 ((holds_root _ _).mp hw)
    | cons l ls =>
      obtain ⟨hfront, hrest⟩ := (holds_wire_cons _ _ _ _).mp hw
      obtain ⟨hlen', -⟩ := label_read buffer p l (hl l (by simp)) hfront
      rw [← hlen', hlen] at hrest
      exact ih (fun j hj => hk j (by simp [hj])) _ h.2 ls (fun j hj => hl j (by simp [hj])) hrest

/-- Otherwise the labels go on without an end. -/
theorem uncompressed_or (buffer : Mem) (n p : ℕ) :
    Uncompressed buffer p ∨ ∃ ls : List Label, (∀ l ∈ ls, ValidLabel l) ∧
      ((∃ c : UInt8, 64 ≤ c.toNat ∧ Holds buffer p (wireLabels ls ++ [c])) ∨
        (ls.length = n ∧ Holds buffer p (wireLabels ls))) := by
  induction n generalizing p with
  | zero => exact .inr ⟨[], by simp, .inr ⟨rfl, holds_nil _ _⟩⟩
  | succ n ih =>
    by_cases h0 : buffer p = 0
    · exact .inl ⟨[], by simp, (holds_root _ _).mpr h0⟩
    by_cases h64 : 64 ≤ (buffer p).toNat
    · exact .inr ⟨[], by simp, .inl ⟨buffer p, h64, (holds_cons _ _ _ _).mpr ⟨rfl, holds_nil _ _⟩⟩⟩
    obtain ⟨l, hl, hfront⟩ := label_stands buffer p h0 (Nat.lt_of_not_le h64)
    have hcons : ∀ ls : List Label, (∀ k ∈ ls, ValidLabel k) → ∀ k ∈ l::ls, ValidLabel k :=
      fun ls hls => List.forall_mem_cons.mpr ⟨hl, hls⟩
    rcases ih (p+l.length+1) with ⟨ls, hls, h⟩ | ⟨ls, hls, ⟨c, hc, h⟩ | ⟨hn, h⟩⟩
    · exact .inl ⟨l::ls, hcons ls hls, (holds_wire_cons _ _ _ _).mpr ⟨hfront, h⟩⟩
    · refine .inr ⟨l::ls, hcons ls hls, .inl ⟨c, hc, ?_⟩⟩
      rw [wireLabels_cons, List.append_assoc, holds_label]
      exact ⟨hfront, h⟩
    · refine .inr ⟨l::ls, hcons ls hls, .inr ⟨by rw [List.length_cons, hn], ?_⟩⟩
      rw [wireLabels_cons, holds_label]
      exact ⟨hfront, h⟩

/-! ## Where the loop ends -/

theorem qname_ends (buffer : Mem) (p : ℕ) (h : Uncompressed buffer p) :
    ∃ needed, ∀ fuel, needed ≤ fuel → ∀ nameLength, ∃ s,
      decodeQname buffer fuel p nameLength = some s := by
  obtain ⟨ls, hls, hw⟩ := h
  refine ⟨ls.length+1, fun fuel hf nameLength => ?_⟩
  obtain ⟨s, hs, -⟩ := qnameLoop_wire buffer ls hls fuel hf
    ⟨p, [], [], nameLength, (buffer p).toNat+1, []⟩ hw
  exact ⟨s, hs⟩

theorem uncompressed_of_some (buffer : Mem) (fuel p nameLength : ℕ) (s : QnameState)
    (h : decodeQname buffer fuel p nameLength = some s) : Uncompressed buffer p := by
  obtain ⟨ls, hls, hw, -⟩ := qnameLoop_name buffer fuel _ s h
  exact ⟨ls, hls, hw⟩

/-- The i-th entry is read four octets behind the one before it. -/
theorem sections_uncompressed (buffer : Mem) (fuel : ℕ) (fresh : ℕ → ℕ) (n cursor : ℕ)
    (qName : List UInt8) (r : List DNSSection × ℕ × List UInt8)
    (h : decodeSections buffer fuel fresh n cursor qName = some r) :
    r.2.1 = cursor+4*n ∧ ∀ i < n, Uncompressed buffer (cursor+4*i) := by
  induction n generalizing fresh cursor qName r with
  | zero =>
    obtain rfl := Option.some.inj h
    exact ⟨rfl, fun i hi => absurd hi (Nat.not_lt_zero i)⟩
  | succ n ih =>
    simp only [decodeSections, Option.bind_eq_bind, Option.bind_eq_some_iff, Option.pure_def,
      Option.some.injEq] at h
    obtain ⟨s, hs, r', hr', rfl⟩ := h
    obtain ⟨hcursor, hrest⟩ := ih _ _ _ _ hr'
    refine ⟨by rw [hcursor]; omega, fun i hi => ?_⟩
    cases i with
    | zero => exact uncompressed_of_some buffer fuel cursor _ s hs
    | succ i =>
      have hname := hrest i (by omega)
      rwa [show cursor+4+4*i = cursor+4*(i+1) by omega] at hname

theorem sections_end (buffer : Mem) (n cursor : ℕ)
    (h : ∀ i < n, Uncompressed buffer (cursor+4*i)) :
    ∃ needed, ∀ fuel, needed ≤ fuel → ∀ fresh qName, ∃ r,
      decodeSections buffer fuel fresh n cursor qName = some r := by
  induction n generalizing cursor with
  | zero => exact ⟨0, fun _ _ _ _ => ⟨_, rfl⟩⟩
  | succ n ih =>
    obtain ⟨first, hfirst⟩ := qname_ends buffer cursor (h 0 (by omega))
    obtain ⟨rest, hrest⟩ := ih (cursor+4) fun i hi => by
      have hname := h (i+1) (by omega)
      rwa [show cursor+4*(i+1) = cursor+4+4*i by omega] at hname
    refine ⟨first+rest, fun fuel hf fresh qName => ?_⟩
    obtain ⟨s, hs⟩ := hfirst fuel (by omega) (fresh 0)
    obtain ⟨r, hr⟩ := hrest fuel (by omega) (fun i => fresh (i+1)) s.m_qName
    exact ⟨_, by simp only [decodeSections, hs, hr, Option.bind_eq_bind, Option.bind_some]; rfl⟩

def entries (h : DNSHeader) : ℕ := h.usQDCOUNT.toNat+h.usANCOUNT.toNat

/-- Whatever the buffer holds and whatever lies behind it. -/
theorem decode_ends_iff (buffer : Mem) (fresh freshAnswers : ℕ → ℕ) (qName : List UInt8) :
    (∃ fuel q, decode buffer fuel fresh freshAnswers qName = some q) ↔
      ∀ i < entries (decodeHdr buffer), Uncompressed buffer (hdrOffset+4*i) := by
  constructor
  · rintro ⟨fuel, q, hq⟩
    simp only [decode, Option.bind_eq_bind, Option.bind_eq_some_iff, Option.pure_def,
      Option.some.injEq] at hq
    obtain ⟨questions, hquestions, answers, hanswers, -⟩ := hq
    obtain ⟨hcursor, hnames⟩ := sections_uncompressed _ _ _ _ _ _ _ hquestions
    obtain ⟨-, hmore⟩ := sections_uncompressed _ _ _ _ _ _ _ hanswers
    intro i hi
    by_cases hlt : i < (decodeHdr buffer).usQDCOUNT.toNat
    · exact hnames i hlt
    · obtain ⟨j, rfl⟩ := Nat.exists_eq_add_of_le (Nat.le_of_not_lt hlt)
      have hname := hmore j (Nat.add_lt_add_iff_left.mp hi)
      rwa [hcursor, Nat.add_assoc, ← Nat.mul_add] at hname
  · intro h
    obtain ⟨needed, hquestions⟩ := sections_end buffer (decodeHdr buffer).usQDCOUNT.toNat hdrOffset
      fun i hi => h i (Nat.lt_add_right _ hi)
    obtain ⟨more, hanswers⟩ := sections_end buffer (decodeHdr buffer).usANCOUNT.toNat
      (hdrOffset+4*(decodeHdr buffer).usQDCOUNT.toNat) fun i hi => by
        rw [Nat.add_assoc, ← Nat.mul_add]
        exact h _ (Nat.add_lt_add_left hi _)
    obtain ⟨r, hr⟩ := hquestions (needed+more) (Nat.le_add_right _ _) fresh qName
    obtain ⟨hcursor, -⟩ := sections_uncompressed _ _ _ _ _ _ _ hr
    obtain ⟨r', hr'⟩ := hanswers (needed+more) (Nat.le_add_left _ _) freshAnswers r.2.2
    rw [← hcursor] at hr'
    exact ⟨needed+more, _, by
      simp only [decode, hr, hr', Option.bind_eq_bind, Option.bind_some]
      rfl⟩

def compressedQuery : List UInt8 :=
  [0x00, 0x07, 0x01, 0x00, 0x00, 0x01, 0x00, 0x00, 0x00, 0x00, 0x00, 0x00, 0xc0, 0x0c, 0x00, 0x01,
    0x00, 0x01]

theorem compressed_query_endless :
    ¬ ∃ fuel q, decode (load compressedQuery fun _ => 0) fuel (fun _ => 0) (fun _ => 0) [] = some q := by
  rintro ⟨fuel, q, hq⟩
  simp only [decode, Option.bind_eq_bind, Option.bind_eq_some_iff] at hq
  obtain ⟨questions, hquestions, -⟩ := hq
  have hname := (sections_uncompressed _ _ _ _ _ _ _ hquestions).2 0 (by decide)
  exact not_uncompressed (load compressedQuery fun _ => 0) 0xc0 (by decide) [] (by simp) 12 rfl hname

/-! ## Room for the copies -/

/-- The `memcpy` calls for labels behind `start` octets, the first of them into a block of
`block` octets. -/
def copiesOf : ℕ → ℕ → List Label → List (ℕ × ℕ × ℕ)
  | _, _, [] => []
  | start, block, l::ls =>
    (start, l.length+1, block)::copiesOf (start+(l.length+1)) (start+(l.length+1)) ls

theorem qnameStep_copies (buffer : Mem) (s : QnameState) (l : Label) (hl : ValidLabel l)
    (h : Holds buffer s.decodeStr (UInt8.ofNat l.length::l)) :
    (qnameStep buffer s).copies = s.copies ++ [(s.binaryName.length, l.length+1, s.block)] ∧
      (qnameStep buffer s).block = s.binaryName.length+(l.length+1) ∧
      (qnameStep buffer s).binaryName.length = s.binaryName.length+(l.length+1) := by
  have hle := hl.le
  obtain ⟨hn, -⟩ := label_read buffer s.decodeStr l hl h
  rw [qnameStep, hn, if_pos (by omega)]
  exact ⟨rfl, rfl, by rw [List.length_append, length_slice]⟩

theorem qnameLoop_copies (buffer : Mem) (ls : List Label) (hv : ∀ l ∈ ls, ValidLabel l)
    (fuel : ℕ) (s s' : QnameState) (h : Holds buffer s.decodeStr (wire ls))
    (hs : qnameLoop buffer fuel s = some s') :
    s'.copies = s.copies ++ copiesOf s.binaryName.length s.block ls := by
  induction ls generalizing s fuel with
  | nil =>
    cases fuel with
    | zero => cases hs
    | succ fuel =>
      rw [qnameLoop, if_pos ((holds_root _ _).mp h)] at hs
      obtain rfl := Option.some.inj hs
      exact (List.append_nil _).symm
  | cons l ls ih =>
    cases fuel with
    | zero => cases hs
    | succ fuel =>
      have hl := hv l (by simp)
      rw [holds_wire_cons] at h
      obtain ⟨-, h0, -⟩ := label_read buffer s.decodeStr l hl h.1
      rw [qnameLoop, if_neg h0] at hs
      obtain ⟨hpos, -⟩ := qnameStep_label buffer s l hl h.1
      obtain ⟨hcopies, hblock, hlen⟩ := qnameStep_copies buffer s l hl h.1
      rw [ih (fun k hk => hv k (by simp [hk])) fuel _ (hpos ▸ h.2) hs, hcopies, hblock, hlen,
        List.append_assoc]
      rfl

theorem copies_inside (buffer : Mem) (cursor : ℕ) (ls : List Label) (hv : ∀ l ∈ ls, ValidLabel l)
    (h : Holds buffer cursor (wire ls)) :
    (∀ c ∈ copiesOf 0 ((buffer cursor).toNat+1) ls, c.1+c.2.1 ≤ c.2.2) ↔ ls.length ≤ 1 := by
  cases ls with
  | nil => simp [copiesOf]
  | cons l ls =>
    rw [holds_wire_cons] at h
    obtain ⟨hn, -⟩ := label_read buffer cursor l (hv l (by simp)) h.1
    rw [hn]
    cases ls with
    | nil => simp [copiesOf]
    | cons m ms => simp [copiesOf]

structure Copied (ls : List Label) (s : QnameState) : Prop where
  inside : ∀ c ∈ s.copies, c.1+c.2.1 ≤ c.2.2
  length : s.nameLength = (ls.map fun l => l.length+1).sum
  octets : s.binaryName = wireLabels ls

/-- Wherever the name stands. Without labels the length stays as it was. -/
theorem copied_iff (buffer : Mem) (cursor : ℕ) (ls : List Label) (hv : ∀ l ∈ ls, ValidLabel l)
    (h : Holds buffer cursor (wire ls)) (nameLength fuel : ℕ) (hf : ls.length < fuel) :
    ∃ s, decodeQname buffer fuel cursor nameLength = some s ∧
      (Copied ls s ↔ ls.length = 1 ∨ (ls = [] ∧ nameLength = 0)) := by
  obtain ⟨s, hs, hread⟩ := qnameLoop_wire buffer ls hv fuel hf
    ⟨cursor, [], [], nameLength, (buffer cursor).toNat+1, []⟩ h
  refine ⟨s, hs, ?_⟩
  have hcopies := qnameLoop_copies buffer ls hv fuel _ s h hs
  have hname : s.binaryName = wireLabels ls := hread.name
  have hlen := hread.length
  simp only [List.nil_append, List.length_nil] at hcopies
  rw [hname, ← sum_labels] at hlen
  have hcopied : Copied ls s ↔
      ls.length ≤ 1 ∧ s.nameLength = (ls.map fun l => l.length+1).sum := by
    rw [← copies_inside buffer cursor ls hv h, ← hcopies]
    exact ⟨fun hc => ⟨hc.inside, hc.length⟩, fun hc => ⟨hc.1, hc.2, hname⟩⟩
  rw [hcopied, hlen]
  cases ls with
  | nil => simp
  | cons l ls => simp

theorem one_label_copied : ∃ s,
    decodeQname (load [0x02, 0x61, 0x62, 0x00] fun _ => 0) 2 0 7 = some s ∧
      Copied [[0x61, 0x62]] s := by
  have hv : ∀ l ∈ [[0x61, 0x62]], ValidLabel l := by
    simp only [List.mem_singleton, forall_eq]
    exact ⟨by decide, by decide⟩
  obtain ⟨s, hs, hcopied⟩ := copied_iff (load [0x02, 0x61, 0x62, 0x00] fun _ => 0) 0
    [[0x61, 0x62]] hv rfl 7 2 (by decide)
  exact ⟨s, hs, hcopied.mpr (.inl rfl)⟩

theorem two_labels_overrun : ∃ s,
    decodeQname (load (wire [[0x61], [0x62]]) fun _ => 0) 3 0 0 = some s ∧
      ¬ Copied [[0x61], [0x62]] s := by
  refine ⟨_, rfl, fun hc => ?_⟩
  exact absurd (hc.inside (2, 2, 2) (by decide)) (by decide)

end FasterConfig.DnsQname
