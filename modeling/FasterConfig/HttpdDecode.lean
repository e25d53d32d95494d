import FasterConfig.Strings
import Mathlib.Data.List.Range
import Mathlib.Data.Int.Notation

/-!
# Decoding of credentials

Four characters at a time become three octets, also where the last group is
not full. The length that would be too long for the output only shortens the
loop, not the place of the closing NUL. All octets that are read and written
are recorded; the memory behind the input is arbitrary.
-/

set_option autoImplicit false

namespace FasterConfig.HttpdDecode
open FasterConfig.Strings

structure AsciiText where
  text : Text
  ascii : ∀ c ∈ text, 0 < c.toNat ∧ c.toNat < 128

def six2pr : List UInt8 :=
  (List.range' 0x41 26 ++ List.range' 0x61 26 ++ List.range' 0x30 10 ++ [0x2b, 0x2f]).map UInt8.ofNat

def decodeMaxval : ℕ := 63

/-- One more than `decodeMaxval` for a character outside the alphabet. -/
def pr2six (c : UInt8) : ℕ := six2pr.idxOf c

def isBlank (c : UInt8) : Bool := c = 0x20 ∨ c = 0x09

def isCode (c : UInt8) : Bool := pr2six c ≤ decodeMaxval

/-- The string, its NUL and what happens to stand behind it. -/
def memory (coded : AsciiText) (beyond : ℕ → UInt8) (i : ℕ) : UInt8 :=
  (coded.text ++ [0]).getD i (beyond (i-coded.text.length-1))

/-- Places in `bufcoded` and `bufplain`; writes with what is written. -/
structure DecodeState where
  bufin : ℕ
  bufout : ℕ
  nprbytes : ℤ
  reads : List ℕ
  writes : List (ℕ × UInt8)

def decodeStep (mem : ℕ → UInt8) (s : DecodeState) : DecodeState :=
  let dec := fun i => pr2six (mem (s.bufin+i))
  { bufin := s.bufin+4
    bufout := s.bufout+3
    nprbytes := s.nprbytes-4
    reads := s.reads ++ List.range' s.bufin 4
    writes := s.writes ++
      [(s.bufout, UInt8.ofNat (dec 0 <<< 2 ||| dec 1 >>> 4)),
       (s.bufout+1, UInt8.ofNat (dec 1 <<< 4 ||| dec 2 >>> 2)),
       (s.bufout+2, UInt8.ofNat (dec 2 <<< 6 ||| dec 3))] }

def decodeLoop (mem : ℕ → UInt8) (s : DecodeState) : DecodeState :=
  if 0 < s.nprbytes then decodeLoop mem (decodeStep mem s) else s
termination_by s.nprbytes.toNat
decreasing_by simp only [decodeStep]; omega

def blanks (coded : AsciiText) : ℕ := (coded.text.takeWhile isBlank).length

def codeLength (coded : AsciiText) : ℕ :=
  ((coded.text.drop (blanks coded)).takeWhile isCode).length

/-- Octets they decode to, three for a group however full it is. -/
def decodedLength (coded : AsciiText) : ℕ := (codeLength coded+3)/4*3

/-- Characters the loop is given: fewer where the octets would not fit. -/
def loopLength (coded : AsciiText) (outbufsize : ℕ) : ℕ :=
  if decodedLength coded > outbufsize then outbufsize*4/3 else codeLength coded

def decodeStart (coded : AsciiText) (outbufsize : ℕ) : DecodeState where
  bufin := blanks coded
  bufout := 0
  nprbytes := loopLength coded outbufsize
  reads := List.range' 0 (blanks coded+1) ++ List.range' (blanks coded) (codeLength coded+1)
  writes := []

structure Decoded where
  nbytesdecoded : ℕ
  reads : List ℕ
  writes : List (ℕ × UInt8)

def httpdDecode (coded : AsciiText) (beyond : ℕ → UInt8) (outbufsize : ℕ) : Decoded :=
  let mem := memory coded beyond
  let s := decodeLoop mem (decodeStart coded outbufsize)
  let nbytesdecoded := decodedLength coded
  if s.nprbytes%4 ≠ 0 then
    let n := if pr2six (mem (s.bufin-2)) > decodeMaxval then nbytesdecoded-2 else nbytesdecoded-1
    ⟨n, s.reads ++ [s.bufin-2], s.writes ++ [(n, 0)]⟩
  else ⟨nbytesdecoded, s.reads, s.writes ++ [(nbytesdecoded, 0)]⟩

/-! ## The loop -/

theorem loop_groups (mem : ℕ → UInt8) (g : ℕ) (s : DecodeState) (h1 : s.nprbytes ≤ 4*g)
    (h2 : 4*g < s.nprbytes+4) :
    (decodeLoop mem s).bufin = s.bufin+4*g ∧ (decodeLoop mem s).nprbytes = s.nprbytes-4*g ∧
      (decodeLoop mem s).reads = s.reads ++ List.range' s.bufin (4*g) ∧
      (decodeLoop mem s).writes.map Prod.fst =
        s.writes.map Prod.fst ++ List.range' s.bufout (3*g) := by
  induction g generalizing s with
  | zero =>
    rw [decodeLoop, if_neg (by omega)]
    simp
  | succ g ih =>
    rw [decodeLoop, if_pos (by omega)]
    obtain ⟨hin, hnp, hr, hw⟩ := ih (decodeStep mem s) (by simp only [decodeStep]; omega)
      (by simp only [decodeStep]; omega)
    rw [hin, hnp, hr, hw]
    simp only [decodeStep]
    refine ⟨by omega, by omega, ?_, ?_⟩
    · rw [List.append_assoc, List.range'_append_1, show 4+4*g = 4*(g+1) by omega]
    · rw [List.map_append, List.append_assoc, show 3*(g+1) = 3+3*g by omega, ← List.range'_append_1]
      rfl

theorem decode_loop (coded : AsciiText) (beyond : ℕ → UInt8) (outbufsize : ℕ) :
    let s := decodeLoop (memory coded beyond) (decodeStart coded outbufsize)
    let g := (loopLength coded outbufsize+3)/4
    s.bufin = blanks coded+4*g ∧ s.nprbytes = loopLength coded outbufsize-4*g ∧
      s.reads = (decodeStart coded outbufsize).reads ++ List.range' (blanks coded) (4*g) ∧
      s.writes.map Prod.fst = List.range' 0 (3*g) :=
  loop_groups (memory coded beyond) _ (decodeStart coded outbufsize)
    (by simp only [decodeStart]; omega) (by simp only [decodeStart]; omega)

theorem blanks_codeLength (coded : AsciiText) : blanks coded+codeLength coded ≤ coded.text.length := by
  have h1 := (List.takeWhile_prefix (l := coded.text) isBlank).length_le
  have h2 := (List.takeWhile_prefix (l := coded.text.drop (blanks coded)) isCode).length_le
  rw [List.length_drop] at h2
  simp only [blanks, codeLength] at *
  omega

theorem decode_nul (coded : AsciiText) (beyond : ℕ → UInt8) (outbufsize : ℕ) :
    (loopLength coded outbufsize%4 = 0 →
      (httpdDecode coded beyond outbufsize).nbytesdecoded = decodedLength coded) ∧
    (loopLength coded outbufsize%4 ≠ 0 →
      decodedLength coded ≤ (httpdDecode coded beyond outbufsize).nbytesdecoded+2 ∧
      (httpdDecode coded beyond outbufsize).nbytesdecoded ≤ decodedLength coded-1) := by
  obtain ⟨-, hnp, -, -⟩ := decode_loop coded beyond outbufsize
  simp only [httpdDecode]
  rw [hnp]
  constructor <;> intro h
  · rw [if_neg (by omega)]
  · rw [if_pos (by omega)]
    simp only
    split_ifs <;> omega

theorem decode_writes (coded : AsciiText) (beyond : ℕ → UInt8) (outbufsize : ℕ) :
    (httpdDecode coded beyond outbufsize).writes.map Prod.fst =
      List.range' 0 (3*((loopLength coded outbufsize+3)/4)) ++
        [(httpdDecode coded beyond outbufsize).nbytesdecoded] := by
  obtain ⟨-, -, -, hw⟩ := decode_loop coded beyond outbufsize
  simp only [httpdDecode]
  split_ifs <;> simp only [List.map_append, hw, List.map_cons, List.map_nil]

theorem decode_reads_eq (coded : AsciiText) (beyond : ℕ → UInt8) (outbufsize : ℕ) :
    let s := decodeLoop (memory coded beyond) (decodeStart coded outbufsize)
    (httpdDecode coded beyond outbufsize).reads =
      s.reads ++ if s.nprbytes%4 ≠ 0 then [s.bufin-2] else [] := by
  simp only [httpdDecode]
  split_ifs <;> simp

theorem decode_reads (coded : AsciiText) (beyond : ℕ → UInt8) (outbufsize : ℕ) :
    (∀ i ∈ (httpdDecode coded beyond outbufsize).reads, i ≤ coded.text.length) ↔
      blanks coded+4*((loopLength coded outbufsize+3)/4) ≤ coded.text.length+1 := by
  obtain ⟨hin, hnp, hr, -⟩ := decode_loop coded beyond outbufsize
  have hb := blanks_codeLength coded
  have hloop : (∀ i ∈ List.range' (blanks coded) (4*((loopLength coded outbufsize+3)/4)),
      i ≤ coded.text.length) ↔
      blanks coded+4*((loopLength coded outbufsize+3)/4) ≤ coded.text.length+1 := by
    simp only [← Nat.lt_succ_iff, range_below_iff]
    omega
  have hscan : ∀ i ∈ (decodeStart coded outbufsize).reads, i ≤ coded.text.length := by
    intro i hi
    rw [decodeStart, List.mem_append, List.mem_range'_1, List.mem_range'_1] at hi
    omega
  rw [decode_reads_eq, ← hloop, hr, hin, hnp]
  split_ifs with hm
  · simp only [List.forall_mem_append, List.forall_mem_singleton]
    constructor
    · exact fun h => h.1.2
    · intro h
      have hlast := hloop.mp h
      exact ⟨⟨hscan, h⟩, by omega⟩
  · rw [List.append_nil, List.forall_mem_append]
    exact and_iff_right hscan

/-! ## Inside -/

def Inside (coded : AsciiText) (outbufsize : ℕ) (d : Decoded) : Prop :=
  (∀ w ∈ d.writes, w.1 < outbufsize) ∧ ∀ i ∈ d.reads, i ≤ coded.text.length

/-- Whole groups fit, with one octet to spare where the last one is full; a group of one
or two characters has enough characters of any kind behind it. -/
structure Fits (coded : AsciiText) (outbufsize : ℕ) : Prop where
  groups : decodedLength coded ≤ outbufsize
  full : codeLength coded%4 = 0 → decodedLength coded < outbufsize
  one : codeLength coded%4 = 1 → blanks coded+codeLength coded+2 ≤ coded.text.length
  two : codeLength coded%4 = 2 → blanks coded+codeLength coded+1 ≤ coded.text.length

theorem inside_iff (coded : AsciiText) (beyond : ℕ → UInt8) (outbufsize : ℕ) (h : 1 ≤ outbufsize) :
    Inside coded outbufsize (httpdDecode coded beyond outbufsize) ↔ Fits coded outbufsize := by
  have hb := blanks_codeLength coded
  have hn := decode_nul coded beyond outbufsize
  have hw : (∀ w ∈ (httpdDecode coded beyond outbufsize).writes, w.1 < outbufsize) ↔
      3*((loopLength coded outbufsize+3)/4) ≤ outbufsize ∧
        (httpdDecode coded beyond outbufsize).nbytesdecoded < outbufsize := by
    have hm := decode_writes coded beyond outbufsize
    rw [← List.forall_mem_map (P := fun i => i < outbufsize), hm]
    simp only [List.forall_mem_append, List.forall_mem_singleton, range_below_iff]
    omega
  have hr := decode_reads coded beyond outbufsize
  have hl : loopLength coded outbufsize = if decodedLength coded > outbufsize then outbufsize*4/3
    else codeLength coded := rfl
  have hd : decodedLength coded = (codeLength coded+3)/4*3 := rfl
  have hg : loopLength coded outbufsize%4 ≠ 0 →
      (loopLength coded outbufsize+3)/4 = loopLength coded outbufsize/4+1 := by omega
  constructor
  · rintro ⟨h1, h2⟩
    rw [hw] at h1
    rw [hr] at h2
    -- were the length reduced, the last group would reach beyond the end
    have hfits : decodedLength coded ≤ outbufsize := by
      by_contra hover
      rw [if_pos (by omega)] at hl
      omega
    rw [if_neg (by omega)] at hl
    rw [hl] at h1 h2 hn hg
    constructor
    · exact hfits
    · intro h0
      exact (hn.1 h0) ▸ h1.2
    · intro hm
      omega
    · intro hm
      omega
  · rintro ⟨h1, h2, h3, h4⟩
    rw [if_neg (by omega)] at hl
    rw [hl] at hn hw hr
    constructor
    · rw [hw]
      refine ⟨by omega, ?_⟩
      by_cases h0 : codeLength coded%4 = 0
      · rw [hn.1 h0]
        exact h2 h0
      · have hlast := (hn.2 h0).2
        omega
    · rw [hr]
      omega

/-- The decoder stays inside its arrays exactly on inputs whose groups fit and are followed
by enough characters. -/
theorem decode_inside_iff (coded : AsciiText) (beyond : ℕ → UInt8) (outbufsize : ℕ)
    (h : 1 ≤ outbufsize) :
    (∀ w ∈ (httpdDecode coded beyond outbufsize).writes, w.1 < outbufsize) ∧
      (∀ i ∈ (httpdDecode coded beyond outbufsize).reads, i ≤ coded.text.length) ↔
    Fits coded outbufsize :=
  inside_iff coded beyond outbufsize h

def paddedLetter : AsciiText := ⟨[0x51, 0x51, 0x3d, 0x3d], by decide +kernel⟩ -- QQ==

theorem padded_letter_inside :
    (∀ w ∈ (httpdDecode paddedLetter (fun _ => 0) 100).writes, w.1 < 100) ∧
      ∀ i ∈ (httpdDecode paddedLetter (fun _ => 0) 100).reads, i ≤ paddedLetter.text.length :=
  (decode_inside_iff paddedLetter (fun _ => 0) 100 (by decide)).mpr
    ⟨by decide, by decide, by decide, by decide⟩

def letters (n : ℕ) : AsciiText :=
  ⟨List.replicate n 0x41, fun c hc => by rw [List.eq_of_mem_replicate hc]; decide⟩

theorem letters_overrun :
    ¬ Inside (letters 200) 100 (httpdDecode (letters 200) (fun _ => 0) 100) ∧
      ¬ Inside (letters 1) 100 (httpdDecode (letters 1) (fun _ => 0) 100) := by
  constructor
  · intro h
    exact absurd ((inside_iff _ _ _ (by decide)).mp h).groups (by decide +kernel)
  · intro h
    exact absurd (((inside_iff _ _ _ (by decide)).mp h).one (by decide)) (by decide)

end FasterConfig.HttpdDecode
