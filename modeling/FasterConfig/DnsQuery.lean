import FasterConfig.DomainName
import FasterConfig.Memory

/-!
# The query decoder

A header of six words, then the question and answer sections. The name of an
entry is copied label by label from where the cursor stands, but the cursor
itself stays there, so type and class are read from the front of the name and
the next entry from four octets behind it.
-/

set_option autoImplicit false

namespace FasterConfig.DnsQuery
open FasterConfig.Octets FasterConfig.DomainName FasterConfig.Memory

structure DNSHeader where
  usTransID : UInt16
  usFlags : UInt16
  usQDCOUNT : UInt16
  usANCOUNT : UInt16
  usNSCOUNT : UInt16
  usARCOUNT : UInt16
  deriving DecidableEq, Repr

/-- Bit-fields with their widths; `usZ` and `usRCODE` are never set. -/
structure DNSHeaderFlags where
  usQR : BitVec 1
  usOpcode : BitVec 4
  usAA : BitVec 1
  usTC : BitVec 1
  usRD : BitVec 1
  usRA : BitVec 1
  deriving DecidableEq, Repr

/-- One entry of the question or of the answer section, with the fields that are set. `copies`
has the start, the number of octets and the block size of each `memcpy` made for its name. -/
structure DNSSection where
  usNAME : List UInt8
  usTYPE : UInt16
  usCLASS : UInt16
  nameLength : ℕ
  copies : List (ℕ × ℕ × ℕ)
  deriving DecidableEq, Repr

structure Query where
  usHeader : DNSHeader
  usDNSFlags : DNSHeaderFlags
  usQuestionSection : List DNSSection
  usAnswerSection : List DNSSection
  m_qName : List UInt8
  deriving DecidableEq, Repr

def hdrOffset : ℕ := 12

def qrMask : ℕ := 0x8000
def opcodeMask : ℕ := 0x7800
def aaMask : ℕ := 0x0400
def tcMask : ℕ := 0x0200
def rdMask : ℕ := 0x0100
def raMask : ℕ := 0x8000

/-! ## Header -/

def decodeHdr (buffer : Mem) : DNSHeader :=
  ⟨get16At buffer 0, get16At buffer 2, get16At buffer 4, get16At buffer 6, get16At buffer 8,
    get16At buffer 10⟩

/-- Storing into a bit-field keeps the low bits of the value. -/
def decodeFlags (usFlags : UInt16) : DNSHeaderFlags where
  usQR := .ofNat 1 (usFlags.toNat &&& qrMask)
  usOpcode := .ofNat 4 (usFlags.toNat &&& opcodeMask)
  usAA := .ofNat 1 (usFlags.toNat &&& aaMask)
  usTC := .ofNat 1 (usFlags.toNat &&& tcMask)
  usRD := .ofNat 1 (usFlags.toNat &&& rdMask)
  usRA := .ofNat 1 (usFlags.toNat &&& raMask)

/-! ## Names -/

/-- `binaryName` is what the first `tmpBinaryNameLength` octets of that block hold, as if it had
no end, and `block` the size it was last given. -/
structure QnameState where
  decodeStr : ℕ
  m_qName : List UInt8
  binaryName : List UInt8
  nameLength : ℕ
  block : ℕ
  copies : List (ℕ × ℕ × ℕ)
  deriving DecidableEq, Repr

def qnameStep (buffer : Mem) (s : QnameState) : QnameState :=
  let length := (buffer s.decodeStr).toNat
  if length < 64 then
    { decodeStr := s.decodeStr+length+1
      m_qName := s.m_qName ++ slice buffer (s.decodeStr+1) length ++ [0x2e]
      binaryName := s.binaryName ++ slice buffer s.decodeStr (length+1)
      nameLength := s.binaryName.length+(length+1)
      block := s.binaryName.length+(length+1)
      copies := s.copies ++ [(s.binaryName.length, length+1, s.block)] }
  else s -- the branch for compressed names is empty

/-- The loop of `decode_qname`, as far as `fuel` passes go. -/
def qnameLoop (buffer : Mem) : ℕ → QnameState → Option QnameState
  | 0, _ => none
  | fuel+1, s =>
    if buffer s.decodeStr = 0 then some s else qnameLoop buffer fuel (qnameStep buffer s)

/-- `nameLength` is the value of `*binaryNameLength` before the call. -/
def decodeQname (buffer : Mem) (fuel cursor nameLength : ℕ) : Option QnameState :=
  qnameLoop buffer fuel ⟨cursor, [], [], nameLength, (buffer cursor).toNat+1, []⟩

/-! ## Sections -/

/-- The first entry is read at the cursor; `fresh` is what the allocated entries held as
name lengths. Returns the entries, the cursor and the last name. -/
def decodeSections (buffer : Mem) (fuel : ℕ) (fresh : ℕ → ℕ) :
    ℕ → ℕ → List UInt8 → Option (List DNSSection × ℕ × List UInt8)
  | 0, cursor, qName => some ([], cursor, qName)
  | n+1, cursor, _ => do
    let name ← decodeQname buffer fuel cursor (fresh 0)
    let (entries, cursor', qName) ←
      decodeSections buffer fuel (fun i => fresh (i+1)) n (cursor+4) name.m_qName
    return (⟨name.binaryName, get16At buffer cursor, get16At buffer (cursor+2), name.nameLength,
      name.copies⟩::entries, cursor', qName)

def decode (buffer : Mem) (fuel : ℕ) (fresh freshAnswers : ℕ → ℕ) (qName : List UInt8) :
    Option Query := do
  let header := decodeHdr buffer
  let (questions, cursor, qName) ←
    decodeSections buffer fuel fresh header.usQDCOUNT.toNat hdrOffset qName
  let (answers, _, qName) ←
    decodeSections buffer fuel freshAnswers header.usANCOUNT.toNat cursor qName
  return ⟨header, decodeFlags header.usFlags, questions, answers, qName⟩

/-! ## Labels in memory -/

section Labels
variable (mem : Mem) (p : ℕ) (l : Label)

theorem holds_root : Holds mem p (wire []) ↔ mem p = 0 := by
  rw [wire, wireLabels_nil, List.nil_append, holds_cons]
  exact and_iff_left (holds_nil _ _)

theorem holds_label (w : List UInt8) :
    Holds mem p ((UInt8.ofNat l.length::l) ++ w) ↔
      Holds mem p (UInt8.ofNat l.length::l) ∧ Holds mem (p+l.length+1) w :=
  holds_append _ _ _ _

theorem holds_wire_cons (ls : List Label) :
    Holds mem p (wire (l::ls)) ↔
      Holds mem p (UInt8.ofNat l.length::l) ∧ Holds mem (p+l.length+1) (wire ls) := by
  rw [wire_cons, holds_label]

theorem label_read (hl : ValidLabel l) (h : Holds mem p (UInt8.ofNat l.length::l)) :
    (mem p).toNat = l.length ∧ mem p ≠ 0 ∧ slice mem (p+1) l.length = l := by
  have hle := hl.le
  have hpos := hl.pos
  obtain ⟨hoctet, hslice⟩ := (holds_cons _ _ _ _).mp h
  have hn : (mem p).toNat = l.length := by
    rw [hoctet, UInt8.toNat_ofNat']
    omega
  refine ⟨hn, fun he => ?_, hslice⟩
  rw [he] at hn
  exact absurd hn (by simp; omega)

theorem label_valid (h0 : mem p ≠ 0) (h : (mem p).toNat < 64) :
    ValidLabel (slice mem (p+1) (mem p).toNat) := by
  have hpos : (mem p).toNat ≠ 0 := fun he => h0 (UInt8.toNat_inj.mp he)
  constructor <;> rw [length_slice] <;> omega

theorem label_stands (h0 : mem p ≠ 0) (h : (mem p).toNat < 64) :
    ∃ l, ValidLabel l ∧ Holds mem p (UInt8.ofNat l.length::l) := by
  refine ⟨_, label_valid mem p h0 h, ?_⟩
  rw [holds_cons, length_slice, UInt8.ofNat_toNat]
  exact ⟨rfl, holds_slice _ _ _⟩

end Labels

/-! ## Reading a name -/

/-- The text form the decoder gives a name: every label is followed by a dot. -/
def dotted (ls : List Label) : List UInt8 := ls.flatMap fun l => l ++ [0x2e]

structure NameRead (s s' : QnameState) (ls : List Label) : Prop where
  text : s'.m_qName = s.m_qName ++ dotted ls
  name : s'.binaryName = s.binaryName ++ wireLabels ls
  length : s'.nameLength = if ls = [] then s.nameLength else s'.binaryName.length

theorem nameRead_nil (s : QnameState) : NameRead s s [] :=
  ⟨by simp [dotted], by simp, rfl⟩

theorem nameRead_cons (s t s' : QnameState) (l : Label) (ls : List Label) (h1 : NameRead s t [l])
    (h2 : NameRead t s' ls) : NameRead s s' (l::ls) where
  text := by
    rw [h2.text, h1.text]
    simp [dotted]
  name := by
    rw [h2.name, h1.name]
    simp
  length := by
    rw [h2.length, h1.length]
    by_cases hn : ls = []
    · have he := h2.name
      simp only [hn, wireLabels_nil, List.append_nil] at he
      simp [hn, he]
    · simp [hn]

theorem qnameStep_label (buffer : Mem) (s : QnameState) (l : Label) (hl : ValidLabel l)
    (h : Holds buffer s.decodeStr (UInt8.ofNat l.length::l)) :
    (qnameStep buffer s).decodeStr = s.decodeStr+l.length+1 ∧ NameRead s (qnameStep buffer s) [l] := by
  have hle := hl.le
  have h0 := ((holds_cons _ _ _ _).mp h).1
  obtain ⟨hn, -, hslice⟩ := label_read buffer s.decodeStr l hl h
  rw [qnameStep, hn, if_pos (by omega)]
  refine ⟨rfl, ⟨?_, ?_, ?_⟩⟩
  · simp only [hslice, dotted]
    simp
  · simp only [slice, h0, hslice]
    simp
  · simp

theorem qnameLoop_wire (buffer : Mem) (ls : List Label) (hv : ∀ l ∈ ls, ValidLabel l) (fuel : ℕ)
    (hf : ls.length < fuel) (s : QnameState) (h : Holds buffer s.decodeStr (wire ls)) :
    ∃ s', qnameLoop buffer fuel s = some s' ∧ NameRead s s' ls := by
  induction ls generalizing s fuel with
  | nil =>
    obtain ⟨fuel, rfl⟩ := Nat.exists_eq_add_of_lt hf
    exact ⟨s, by rw [qnameLoop, if_pos ((holds_root _ _).mp h)], nameRead_nil s⟩
  | cons l ls ih =>
    obtain ⟨fuel, rfl⟩ := Nat.exists_eq_add_of_lt hf
    have hl := hv l (by simp)
    obtain ⟨hfront, hrest⟩ := (holds_wire_cons _ _ _ _).mp h
    obtain ⟨-, h0, -⟩ := label_read buffer s.decodeStr l hl hfront
    obtain ⟨hp, hr⟩ := qnameStep_label buffer s l hl hfront
    rw [← hp] at hrest
    obtain ⟨s', hs', hn⟩ := ih (fun k hk => hv k (by simp [hk])) ((l::ls).length+fuel)
      (by simp; omega) _ hrest
    exact ⟨s', by rw [qnameLoop, if_neg h0, hs'], nameRead_cons s _ s' l ls hr hn⟩

theorem qnameLoop_name (buffer : Mem) (fuel : ℕ) (s s' : QnameState)
    (h : qnameLoop buffer fuel s = some s') :
    ∃ ls, (∀ l ∈ ls, ValidLabel l) ∧ Holds buffer s.decodeStr (wire ls) ∧ NameRead s s' ls := by
  induction fuel generalizing s with
  | zero => cases h
  | succ fuel ih =>
    rw [qnameLoop] at h
    by_cases h0 : buffer s.decodeStr = 0
    · rw [if_pos h0] at h
      obtain rfl := Option.some.inj h
      exact ⟨[], by simp, (holds_root _ _).mpr h0, nameRead_nil s⟩
    · rw [if_neg h0] at h
      obtain ⟨ls, hv, hh, hn⟩ := ih _ h
      by_cases hlt : (buffer s.decodeStr).toNat < 64
      · obtain ⟨l, hl, hfront⟩ := label_stands buffer s.decodeStr h0 hlt
        obtain ⟨hp, hr⟩ := qnameStep_label buffer s l hl hfront
        rw [hp] at hh
        exact ⟨l::ls, List.forall_mem_cons.mpr ⟨hl, hv⟩, (holds_wire_cons _ _ _ _).mpr ⟨hfront, hh⟩,
          nameRead_cons s _ s' l ls hr hn⟩
      · rw [qnameStep, if_neg hlt] at hh hn
        exact ⟨ls, hv, hh, hn⟩

/-! ## Masks and widths -/

theorem decodeFlags_zero (usFlags : UInt16) : decodeFlags usFlags = ⟨0, 0, 0, 0, 0, 0⟩ := by
  have h : ∀ k mask, mask%2^k = 0 → BitVec.ofNat k (usFlags.toNat &&& mask) = 0 := by
    intro k mask hm
    apply BitVec.eq_of_toNat_eq
    rw [BitVec.toNat_ofNat, Nat.and_mod_two_pow, hm, Nat.and_zero]
    rfl
  simp only [decodeFlags, DNSHeaderFlags.mk.injEq]
  exact ⟨h 1 _ rfl, h 4 _ rfl, h 1 _ rfl, h 1 _ rfl, h 1 _ rfl, h 1 _ rfl⟩

/-- The fields of RFC 1035 4.1.1. -/
def rfcFlags (flags : UInt16) : DNSHeaderFlags where
  usQR := .ofNat 1 (flags.toNat/0x8000)
  usOpcode := .ofNat 4 (flags.toNat/0x0800)
  usAA := .ofNat 1 (flags.toNat/0x0400)
  usTC := .ofNat 1 (flags.toNat/0x0200)
  usRD := .ofNat 1 (flags.toNat/0x0100)
  usRA := .ofNat 1 (flags.toNat/0x0080)

theorem flags_right_iff (flags : UInt16) : decodeFlags flags = rfcFlags flags ↔ flags.toNat < 128 := by
  have hf := flags.toNat_lt
  have hb : ∀ k n : ℕ, 0#k = BitVec.ofNat k n ↔ n%2^k = 0 := by
    intro k n
    rw [← BitVec.toNat_inj, BitVec.toNat_ofNat, BitVec.toNat_ofNat, Nat.zero_mod, eq_comm]
  rw [decodeFlags_zero, rfcFlags, DNSHeaderFlags.mk.injEq]
  simp only [BitVec.ofNat_eq_ofNat, hb]
  omega

end FasterConfig.DnsQuery
