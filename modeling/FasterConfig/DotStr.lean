import FasterConfig.DnsQuery
import FasterConfig.Traced

/-!
# Names in a received packet

Labels are copied behind each other with a dot after each one. A length octet
from 64 on sends the decoder to an offset of the packet, where a call of its
own goes on; the innermost call puts the closing NUL over the last dot.
-/

set_option autoImplicit false

namespace FasterConfig.DotStr
open FasterConfig.Octets FasterConfig.DomainName FasterConfig.Memory FasterConfig.DnsQuery
open FasterConfig.Strings FasterConfig.Traced

/-- What a call that returns TRUE leaves in `*pusEncodedStrLen` and in the array. -/
structure Decoded where
  encodedStrLen : ℕ
  dot : Mem

/-- `usPlainStrLen` never passes `nDotStrSize`, so that no `USHORT` wraps around. `none` is
FALSE; `szPacketStartPos` may be NULL. -/
def decodeLoop (packet : Mem) (szPacketStartPos : Option ℕ) :
    ℕ → (pDecodePos usPlainStrLen encodedStrLen szDotStr nDotStrSize : ℕ) → Mem →
      Run Access (Option Decoded)
  | 0, _, _, _, _, _, _ => Run.starved
  | fuel+1, pDecodePos, usPlainStrLen, encodedStrLen, szDotStr, nDotStrSize, dot => do
    let nLabelDataLen ← readOctet packet pDecodePos
    if nLabelDataLen = 0 then
      let dot ← writeOctets dot (szDotStr+usPlainStrLen-1) [0]
      return some ⟨encodedStrLen+1, dot⟩
    else if nLabelDataLen &&& 0xc0 = 0 then
      if nDotStrSize < usPlainStrLen+nLabelDataLen.toNat+1 then return none
      else
        let label ← readOctets packet (pDecodePos+1) nLabelDataLen.toNat
        let dot ← writeOctets dot (szDotStr+usPlainStrLen) (label ++ [0x2e])
        decodeLoop packet szPacketStartPos fuel (pDecodePos+(nLabelDataLen.toNat+1))
          (usPlainStrLen+(nLabelDataLen.toNat+1)) (encodedStrLen+(nLabelDataLen.toNat+1)) szDotStr
          nDotStrSize dot
    else match szPacketStartPos with
      | none => return none
      | some start =>
        let usJumpPos := (← read16 packet pDecodePos) &&& 0x3fff
        let target ← decodeLoop packet szPacketStartPos fuel (start+usJumpPos.toNat) 0 0
          (szDotStr+usPlainStrLen) (nDotStrSize-usPlainStrLen) dot
        return target.map fun r => ⟨encodedStrLen+2, r.dot⟩

def decodeDotStr (packet : Mem) (szPacketStartPos : Option ℕ)
    (fuel szEncodedStr szDotStr nDotStrSize : ℕ) (dot : Mem) : Run Access (Option Decoded) :=
  decodeLoop packet szPacketStartPos fuel szEncodedStr 0 0 szDotStr nDotStrSize dot

/-! ## Names -/

/-- A name with the labels `ls` takes up `len` octets from `pos` on; `marks` tells the
length octets that begin a pointer. There is no endless chain of pointers. -/
inductive NameAt (marks : ℕ → Prop) (d : List UInt8) : ℕ → List Label → ℕ → Prop where
  | root (pos : ℕ) (h : [0] <+: d.drop pos) : NameAt marks d pos [] 1
  | label (pos len : ℕ) (l : Label) (ls : List Label) (hl : ValidLabel l)
      (h : UInt8.ofNat l.length::l <+: d.drop pos)
      (rest : NameAt marks d (pos+(l.length+1)) ls len) :
      NameAt marks d pos (l::ls) (l.length+1+len)
  | pointer (pos len : ℕ) (hi lo : UInt8) (ls : List Label) (h : [hi, lo] <+: d.drop pos)
      (hm : marks hi.toNat) (target : NameAt marks d ((get16 hi lo).toNat%16384) ls len) :
      NameAt marks d pos ls 2

theorem nameAt_wire (marks : ℕ → Prop) (d : List UInt8) (ls : List Label)
    (hv : ∀ l ∈ ls, ValidLabel l) (pos : ℕ) (h : wire ls <+: d.drop pos) :
    NameAt marks d pos ls (wire ls).length := by
  induction ls generalizing pos with
  | nil => exact .root pos h
  | cons l ls ih =>
    rw [wire_cons] at h ⊢
    have hrest : wire ls <+: d.drop (pos+(l.length+1)) := by
      have hd := h.drop (UInt8.ofNat l.length::l).length
      rwa [List.drop_left, List.drop_drop, List.length_cons] at hd
    rw [List.length_append, List.length_cons]
    exact .label pos _ l ls (hv l (by simp)) ((List.prefix_append _ _).trans h)
      (ih (fun k hk => hv k (List.mem_cons_of_mem l hk)) _ hrest)

/-- The labels with their dots behind `plain` octets of text, and the closing NUL. -/
def ended (dot : Mem) (p : ℕ) (ls : List Label) : Mem :=
  store (store dot p (dotted ls)) (p+(dotted ls).length-1) [0]

theorem dotted_cons (l : Label) (ls : List Label) : dotted (l::ls) = (l ++ [0x2e]) ++ dotted ls := rfl

theorem length_dotted (ls : List Label) : (dotted ls).length = (wireLabels ls).length := by
  induction ls with
  | nil => rfl
  | cons l ls ih =>
    rw [dotted_cons, List.length_append, List.length_append, List.length_singleton, ih,
      wireLabels_cons, List.length_append, List.length_cons]

theorem ended_cons (dot : Mem) (p : ℕ) (l : Label) (ls : List Label) :
    ended dot p (l::ls) = ended (store dot p (l ++ [0x2e])) (p+(l.length+1)) ls := by
  simp only [ended, dotted_cons, store_append, List.length_append, List.length_singleton]
  congr 1
  omega

theorem and_c0 (c : UInt8) : c &&& 0xc0 = 0 ↔ c.toNat < 64 := by
  have h : ∀ n < 256, n &&& 192 = 0 ↔ n < 64 := by decide +kernel
  rw [← UInt8.toNat_inj, UInt8.toNat_and]
  exact h _ c.toNat_lt

theorem pointer_octet (c : UInt8) (h : 64 ≤ c.toNat) : c ≠ 0 ∧ ¬ c &&& 0xc0 = 0 := by
  constructor
  · intro he
    rw [he] at h
    exact absurd h (by decide)
  · exact mt (and_c0 c).mp (by omega)

theorem and_3fff (v : UInt16) : (v &&& 0x3fff).toNat = v.toNat%16384 := by
  rw [UInt16.toNat_and]
  exact Nat.and_two_pow_sub_one_eq_mod v.toNat 14

def joined : List Label → Text
  | [] => []
  | [l] => l
  | l::ls => l ++ 0x2e::joined ls

theorem joined_cons (l m : Label) (ms : List Label) :
    joined (l::m::ms) = l ++ 0x2e::joined (m::ms) := rfl

theorem joined_eq (ls : List Label) : joined ls = [0x2e].intercalate ls := by
  induction ls with
  | nil => rfl
  | cons l ls ih =>
    cases ls with
    | nil => rw [List.intercalate_singleton, joined]
    | cons m ms =>
      rw [joined_cons, ih, List.intercalate_cons_cons, List.append_assoc, List.singleton_append]

theorem strtok_joined (ls : List Label) (h : ∀ l ∈ ls, l ≠ [] ∧ 0x2e ∉ l) :
    strtok 0x2e (joined ls) = ls := by
  rw [joined_eq]
  exact Separators.tokens_intercalate 0x2e ls h

theorem text_plain (ls : List Label) (h : ∀ l ∈ ls, ∀ c ∈ l, Plain c) : text ls = joined ls := by
  induction ls with
  | nil => rfl
  | cons l ls ih =>
    have hl := escapeLabel_plain l (h l (by simp))
    cases ls with
    | nil => rw [text, joined, hl]
    | cons m ms => rw [text, joined_cons, hl, ih fun k hk => h k (List.mem_cons_of_mem l hk)]; simp

theorem dotted_eq (ls : List Label) (h : ls ≠ []) : dotted ls = joined ls ++ [0x2e] := by
  induction ls with
  | nil => exact absurd rfl h
  | cons l ls ih =>
    cases ls with
    | nil => rw [dotted_cons, dotted, List.flatMap_nil, List.append_nil, joined]
    | cons m ms =>
      rw [dotted_cons, ih (by simp), joined_cons]
      simp only [List.append_assoc, List.cons_append, List.nil_append]

theorem length_joined (ls : List Label) (h : ls ≠ []) :
    (wireLabels ls).length = (joined ls).length+1 := by
  rw [← length_dotted, dotted_eq ls h, List.length_append, List.length_singleton]

theorem ended_eq (dot : Mem) (p : ℕ) (ls : List Label) (h : ls ≠ []) :
    ended dot p ls = store dot p (joined ls ++ [0]) := by
  rw [ended, dotted_eq ls h, List.length_append, List.length_singleton, ← Nat.add_assoc,
    Nat.add_sub_cancel, store_last]

theorem cString_ended (dot : Mem) (p n : ℕ) (ls : List Label) (h : ls ≠ [])
    (hn : (joined ls).length < n) : cString (slice (ended dot p ls) p n) = cString (joined ls) := by
  obtain ⟨k, rfl⟩ := Nat.exists_eq_add_of_lt hn
  have hh := holds_store dot p (joined ls ++ [0])
  rw [← ended_eq dot p ls h, Holds, List.length_append, List.length_singleton] at hh
  rw [Nat.add_right_comm, slice_add, hh, List.append_assoc, List.singleton_append, cString_cut]

section Steps
variable (packet : Mem) (start : Option ℕ) (fuel pos plain enc s size : ℕ) (dot : Mem)

theorem result_root (h : packet pos = 0) :
    (decodeLoop packet start (fuel+1) pos plain enc s size dot).result =
      some (some ⟨enc+1, store dot (s+plain-1) [0]⟩) := by
  simp only [decodeLoop, Run.result_bind, result_readOctet, Option.bind_some, if_pos h,
    result_writeOctets, Run.result_pure]

theorem result_label (h0 : packet pos ≠ 0) (h : (packet pos).toNat < 64) :
    (decodeLoop packet start (fuel+1) pos plain enc s size dot).result =
      if size < plain+(packet pos).toNat+1 then some none
      else (decodeLoop packet start fuel (pos+((packet pos).toNat+1)) (plain+((packet pos).toNat+1))
        (enc+((packet pos).toNat+1)) s size
        (store dot (s+plain) (slice packet (pos+1) (packet pos).toNat ++ [0x2e]))).result := by
  simp only [decodeLoop, Run.result_bind, result_readOctet, Option.bind_some, if_neg h0,
    if_pos ((and_c0 _).mpr h)]
  by_cases hs : size < plain+(packet pos).toNat+1
  · simp only [if_pos hs, Run.result_pure]
  · simp only [if_neg hs, Run.result_bind, result_readOctets, result_writeOctets, Option.bind_some]

theorem result_pointer (base : ℕ) (h : 64 ≤ (packet pos).toNat) :
    (decodeLoop packet (some base) (fuel+1) pos plain enc s size dot).result =
      (decodeLoop packet (some base) fuel (base+(get16At packet pos).toNat%16384) 0 0 (s+plain)
        (size-plain) dot).result.map fun target => target.map fun r => ⟨enc+2, r.dot⟩ := by
  obtain ⟨h0, hc⟩ := pointer_octet (packet pos) h
  simp only [decodeLoop, Run.result_bind, result_readOctet, Option.bind_some, if_neg h0, if_neg hc,
    result_read16, and_3fff]
  cases (decodeLoop packet (some base) fuel (base+(get16At packet pos).toNat%16384) 0 0 (s+plain)
    (size-plain) dot).result <;> rfl

variable (n : ℕ)

theorem below_first (h : (decodeLoop packet start (fuel+1) pos plain enc s size dot).All
    (Access.Below n)) : pos < n := by
  simp only [decodeLoop, Run.all_bind, readOctet_below] at h
  exact h.1

theorem below_root (h : packet pos = 0) :
    (decodeLoop packet start (fuel+1) pos plain enc s size dot).All (Access.Below n) ↔ pos < n := by
  simp only [decodeLoop, Run.all_bind, result_readOctet, Option.some.injEq, forall_eq', if_pos h,
    readOctet_below, writeOctets_below, Run.all_pure, implies_true, and_true]

theorem below_label (h0 : packet pos ≠ 0) (h : (packet pos).toNat < 64) :
    (decodeLoop packet start (fuel+1) pos plain enc s size dot).All (Access.Below n) ↔
      pos < n ∧ (plain+(packet pos).toNat+1 ≤ size → pos+((packet pos).toNat+1) ≤ n ∧
        (decodeLoop packet start fuel (pos+((packet pos).toNat+1)) (plain+((packet pos).toNat+1))
          (enc+((packet pos).toNat+1)) s size (store dot (s+plain)
            (slice packet (pos+1) (packet pos).toNat ++ [0x2e]))).All (Access.Below n)) := by
  have hpos : (packet pos).toNat ≠ 0 := fun he => h0 (UInt8.toNat_inj.mp he)
  simp only [decodeLoop, Run.all_bind, result_readOctet, Option.some.injEq, forall_eq', if_neg h0,
    if_pos ((and_c0 _).mpr h), readOctet_below]
  by_cases hs : size < plain+(packet pos).toNat+1
  · simp only [if_pos hs, Run.all_pure, and_true, Nat.not_le_of_lt hs, false_implies]
  · simp only [if_neg hs, Run.all_bind, result_readOctets, result_writeOctets, Option.some.injEq,
      forall_eq', readOctets_below, writeOctets_below, true_and, hpos, false_or,
      Nat.le_of_not_lt hs, true_implies]
    rw [Nat.add_right_comm, Nat.add_assoc]

theorem below_pointer (base : ℕ) (h : 64 ≤ (packet pos).toNat) :
    (decodeLoop packet (some base) (fuel+1) pos plain enc s size dot).All (Access.Below n) ↔
      pos+1 < n ∧ (decodeLoop packet (some base) fuel (base+(get16At packet pos).toNat%16384) 0 0
        (s+plain) (size-plain) dot).All (Access.Below n) := by
  obtain ⟨h0, hc⟩ := pointer_octet (packet pos) h
  simp only [decodeLoop, Run.all_bind, result_readOctet, Option.some.injEq, forall_eq', if_neg h0,
    if_neg hc, readOctet_below, read16_below, result_read16, and_3fff, Run.all_pure, implies_true,
    and_true]
  exact ⟨fun h => h.2, fun h => ⟨Nat.lt_of_succ_lt h.1, h⟩⟩

theorem pointer_refused (h : 64 ≤ (packet pos).toNat) :
    (decodeLoop packet none (fuel+1) pos plain enc s size dot).result = some none ∧
      ((decodeLoop packet none (fuel+1) pos plain enc s size dot).All (Access.Below n) ↔ pos < n) := by
  obtain ⟨h0, hc⟩ := pointer_octet (packet pos) h
  simp only [decodeLoop, Run.result_bind, Run.all_bind, result_readOctet, Option.bind_some,
    Option.some.injEq, forall_eq', if_neg h0, if_neg hc, readOctet_below, Run.result_pure,
    Run.all_pure, and_true]

end Steps

section There
variable (packet : Mem) (d : List UInt8) (hd : Holds packet 0 d) (pos : ℕ)
include hd

theorem root_octet (h : [0] <+: d.drop pos) : packet pos = 0 :=
  ((holds_cons _ _ _ _).mp (hd.within pos _ h)).1

theorem label_octets (l : Label) (hl : ValidLabel l) (h : UInt8.ofNat l.length::l <+: d.drop pos) :
    (packet pos).toNat = l.length ∧ packet pos ≠ 0 ∧ slice packet (pos+1) l.length = l :=
  label_read packet pos l hl (hd.within pos _ h)

theorem pointer_octets (hi lo : UInt8) (h : [hi, lo] <+: d.drop pos) :
    packet pos = hi ∧ get16At packet pos = get16 hi lo := by
  have hh := hd.within pos _ h
  rw [holds_cons, holds_cons] at hh
  exact ⟨hh.1, by rw [get16At, hh.1, hh.2.1]⟩

end There

/-- With enough fuel a name that is there is copied if its text fits, and refused otherwise. -/
theorem decodeLoop_name (packet : Mem) (d : List UInt8) (hd : Holds packet 0 d) (start : Option ℕ)
    (marks : ℕ → Prop) (hm : ∀ c, marks c → 64 ≤ c ∧ start = some 0) (pos len : ℕ) (ls : List Label)
    (h : NameAt marks d pos ls len) :
    ∃ needed, ∀ fuel, needed ≤ fuel → ∀ plain enc s size dot, 1 ≤ s → plain ≤ size →
      (decodeLoop packet start fuel pos plain enc s size dot).result =
        some (if plain+(wireLabels ls).length ≤ size then some ⟨enc+len, ended dot (s+plain) ls⟩
          else none) := by
  induction h with
  | root pos h =>
    have h0 := root_octet packet d hd pos h
    refine ⟨1, fun fuel hf plain enc s size dot hs hp => ?_⟩
    obtain ⟨fuel, rfl⟩ := Nat.exists_eq_add_of_le' hf
    rw [result_root _ _ _ _ _ _ _ _ _ h0, if_pos (by simpa using hp)]
    rfl
  | label pos len l ls hl h rest ih =>
    obtain ⟨needed, ih⟩ := ih
    have hle := hl.le
    obtain ⟨hn, h0, hslice⟩ := label_octets packet d hd pos l hl h
    refine ⟨needed+1, fun fuel hf plain enc s size dot hs hp => ?_⟩
    obtain ⟨fuel, rfl⟩ := Nat.exists_eq_add_of_le' (Nat.le_trans (Nat.le_add_left 1 needed) hf)
    rw [result_label _ _ _ _ _ _ _ _ _ h0 (by omega), hn, hslice, wireLabels_cons,
      List.length_append, List.length_cons, ended_cons]
    by_cases hroom : size < plain+l.length+1
    · rw [if_pos hroom, if_neg (by omega)]
    · rw [if_neg hroom, ih fuel (by omega) _ _ _ _ _ hs (by omega)]
      simp only [Nat.add_assoc]
  | pointer pos len hi lo ls h hmark target ih =>
    obtain ⟨needed, ih⟩ := ih
    obtain ⟨h64, rfl⟩ := hm _ hmark
    obtain ⟨hc, hw⟩ := pointer_octets packet d hd pos hi lo h
    refine ⟨needed+1, fun fuel hf plain enc s size dot hs hp => ?_⟩
    obtain ⟨fuel, rfl⟩ := Nat.exists_eq_add_of_le' (Nat.le_trans (Nat.le_add_left 1 needed) hf)
    rw [result_pointer _ _ _ _ _ _ _ _ _ (hc ▸ h64), hw, Nat.zero_add,
      ih fuel (by omega) _ _ _ _ _ (by omega) (Nat.zero_le _)]
    by_cases hroom : plain+(wireLabels ls).length ≤ size
    · rw [if_pos (by omega), if_pos hroom]
      rfl
    · rw [if_neg (by omega), if_neg hroom]
      rfl

end FasterConfig.DotStr
