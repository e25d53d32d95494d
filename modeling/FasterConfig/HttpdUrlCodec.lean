import FasterConfig.HttpdEscape
import FasterConfig.HttpdRequest
import Mathlib.Data.List.Infix

/-!
# Escaping into an array and back

The array for an escaped text is measured in one pass and filled in another.
Each octet takes one place or three, and what it becomes can be read back.
The decoder of the server reads the same triples, but turns a plus into a
blank, which the encoder never writes for one.
-/

set_option autoImplicit false

namespace FasterConfig.HttpdUrlCodec
open FasterConfig.Strings FasterConfig.HttpdEscape FasterConfig.HttpdRequest

/-! ## The array -/

def unacceptable (str : Text) : ℕ := str.foldl (fun n a => if acceptable a then n else n+2) 0

/-- What `malloc` is asked for. -/
def escapeSize (str : Text) : ℕ := str.length+unacceptable str+1

/-- `q` is the place in `result` that is written next. -/
structure Escaping where
  result : Text
  q : ℕ
  writes : List ℕ

def put (c : UInt8) (s : Escaping) : Escaping :=
  { result := s.result.set s.q c, q := s.q+1, writes := s.writes ++ [s.q] }

def escapeStep (s : Escaping) (a : UInt8) : Escaping :=
  if acceptable a then put a s
  else put (hex.getD (a &&& 15).toNat 0) (put (hex.getD (a >>> 4).toNat 0) (put 0x25 s))

def escapeInto (str : Text) : Escaping :=
  put 0 (str.foldl escapeStep ⟨List.replicate (escapeSize str) 0, 0, []⟩)

def putAll (cs : Text) (s : Escaping) : Escaping := cs.foldl (fun s c => put c s) s

theorem escapeStep_eq (s : Escaping) (a : UInt8) : escapeStep s a = putAll (escapeChar a) s := by
  rw [escapeStep, escapeChar]
  split_ifs <;> rfl

theorem escapeAll_eq (str : Text) (s : Escaping) :
    str.foldl escapeStep s = putAll (httpdEscape str) s := by
  induction str generalizing s with
  | nil => rfl
  | cons a str ih =>
    rw [List.foldl_cons, escapeStep_eq, ih, httpdEscape, httpdEscape, List.flatMap_cons, putAll,
      putAll, putAll, List.foldl_append]

theorem putAll_eq (cs : Text) (s : Escaping) (h : s.q+cs.length ≤ s.result.length) :
    putAll cs s =
      { result := s.result.take s.q ++ cs ++ s.result.drop (s.q+cs.length)
        q := s.q+cs.length
        writes := s.writes ++ List.range' s.q cs.length } := by
  induction cs generalizing s with
  | nil => simp [putAll]
  | cons c cs ih =>
    rw [List.length_cons] at h
    have htake := take_set_succ s.result s.q c (by omega)
    have hrest := ih (put c s) (by simp only [put, List.length_set]; omega)
    rw [putAll] at hrest
    rw [putAll, List.foldl_cons, hrest]
    simp only [put, htake, List.length_cons, List.range'_succ, List.append_assoc]
    rw [List.drop_set_of_lt (by omega), Nat.add_right_comm, Nat.add_assoc s.q]
    rfl

theorem length_escapeChar (a : UInt8) :
    (escapeChar a).length = if acceptable a then 1 else 3 := by
  rw [escapeChar]
  split_ifs <;> rfl

theorem unacceptable_from (str : Text) (n : ℕ) :
    str.foldl (fun n a => if acceptable a then n else n+2) n = n+unacceptable str := by
  induction str generalizing n with
  | nil => rfl
  | cons a str ih =>
    have hu : unacceptable (a::str) = (if acceptable a then 0 else 2)+unacceptable str := ih _
    rw [List.foldl_cons, ih, hu]
    split_ifs <;> omega

theorem unacceptable_cons (a : UInt8) (str : Text) :
    unacceptable (a::str) = (if acceptable a then 0 else 2)+unacceptable str :=
  unacceptable_from str _

theorem length_escape (str : Text) : (httpdEscape str).length = str.length+unacceptable str := by
  induction str with
  | nil => rfl
  | cons a str ih =>
    rw [httpdEscape, List.flatMap_cons, List.length_append, length_escapeChar, ← httpdEscape, ih,
      List.length_cons, unacceptable_cons]
    split_ifs <;> omega

theorem unacceptable_le (str : Text) : unacceptable str ≤ 2*str.length := by
  induction str with
  | nil => exact Nat.le_refl _
  | cons a str ih =>
    rw [unacceptable_cons, List.length_cons]
    split_ifs <;> omega

/-- The counter is an `int`; it is exact for every text shorter than this. -/
theorem unacceptable_lt (str : Text) (h : str.length < 2^30) : unacceptable str < 2^31 := by
  have hle := unacceptable_le str
  omega

theorem escapeInto_eq (str : Text) :
    (escapeInto str).result = httpdEscape str ++ [0] ∧
      (escapeInto str).writes = List.range (escapeSize str) := by
  have hl := length_escape str
  have hs : escapeSize str = (httpdEscape str).length+1 := by rw [escapeSize, hl]
  have hall : escapeInto str =
      putAll (httpdEscape str ++ [0]) ⟨List.replicate (escapeSize str) 0, 0, []⟩ := by
    rw [escapeInto, escapeAll_eq, putAll, putAll, List.foldl_append]
    rfl
  rw [hall, putAll_eq _ _ (by simp [hs]), hs, List.range_eq_range']
  simp

/-! ## What an octet becomes -/

def upperHex (c : UInt8) : Bool := (0x30 ≤ c ∧ c ≤ 0x39) ∨ (0x41 ≤ c ∧ c ≤ 0x46)

def hexValue (c : UInt8) : UInt8 := if c ≤ 0x39 then c-0x30 else c-0x41+10

/-- Printable and without a meaning of its own in a URL. -/
def plain (c : UInt8) : Bool :=
  0x20 < c ∧ c < 0x7f ∧ c ≠ 0x26 ∧ c ≠ 0x3d ∧ c ≠ 0x3f ∧ c ≠ 0x23 ∧ c ≠ 0x2f

inductive StandsFor (a : UInt8) : Text → Prop where
  | self (h : a ≠ 0x25) : StandsFor a [a]
  | triple (h l : UInt8) (hh : upperHex h = true) (hl : upperHex l = true)
      (hv : hexValue h*16+hexValue l = a) : StandsFor a [0x25, h, l]

theorem acceptable_ne (a : UInt8) (h : acceptable a = true) : a ≠ 0x25 := by
  rintro rfl
  exact absurd h (by decide)

theorem hexDigits (a : UInt8) :
    upperHex (hex.getD (a >>> 4).toNat 0) = true ∧ upperHex (hex.getD (a &&& 15).toNat 0) = true ∧
      hexValue (hex.getD (a >>> 4).toNat 0)*16+hexValue (hex.getD (a &&& 15).toNat 0) = a := by
  induction a using octet_induction with
  | h n hn =>
    revert n
    decide +kernel

theorem escapeChar_standsFor (a : UInt8) : StandsFor a (escapeChar a) := by
  rw [escapeChar]
  split_ifs with h
  · exact .self (acceptable_ne a h)
  · obtain ⟨hh, hl, hv⟩ := hexDigits a
    exact .triple _ _ hh hl hv

theorem escapeChar_plain (a c : UInt8) (h : c ∈ escapeChar a) : plain c = true := by
  have hall : ∀ a, (escapeChar a).all plain = true := octet_induction (by decide +kernel)
  exact List.all_eq_true.mp (hall a) c h

theorem escape_plain (str : Text) (c : UInt8) (h : c ∈ httpdEscape str) : plain c = true := by
  obtain ⟨a, -, hc⟩ := List.mem_flatMap.mp h
  exact escapeChar_plain a c hc

theorem escape_cons (a : UInt8) (str : Text) :
    httpdEscape (a::str) = escapeChar a ++ httpdEscape str := rfl

theorem upperHex_ne (c : UInt8) (h : upperHex c = true) : c ≠ 0x25 := by
  rintro rfl
  exact absurd h (by decide)

theorem escape_percent (str pre rest : Text) (h : httpdEscape str = pre ++ 0x25::rest) :
    ∃ d e tail, rest = d::e::tail ∧ upperHex d = true ∧ upperHex e = true := by
  induction str generalizing pre with
  | nil => exact absurd h (by simp [httpdEscape])
  | cons a str ih =>
    rw [escape_cons] at h
    have hu := escapeChar_standsFor a
    generalize escapeChar a = u at h hu
    cases hu with
    | self ha =>
      cases pre with
      | nil => exact absurd (List.cons.inj h).1 ha
      | cons c pre => exact ih pre (List.cons.inj h).2
    | triple d e hd he hv =>
      match pre, h with
      | [], h => exact ⟨d, e, httpdEscape str, (List.cons.inj h).2.symm, hd, he⟩
      | [c], h => exact absurd (List.cons.inj (List.cons.inj h).2).1 (upperHex_ne d hd)
      | [c, x], h =>
        exact absurd (List.cons.inj (List.cons.inj (List.cons.inj h).2).2).1 (upperHex_ne e he)
      | c::x::y::pre, h => exact ih pre (List.cons.inj (List.cons.inj (List.cons.inj h).2).2).2

/-! ## Back again -/

def replaceTriples : Text → Text
  | [] => []
  | 0x25::h::l::rest =>
    if upperHex h = true ∧ upperHex l = true then (hexValue h*16+hexValue l)::replaceTriples rest
    else 0x25::replaceTriples (h::l::rest)
  | c::rest => c::replaceTriples rest

theorem replaceTriples_standsFor (a : UInt8) (u rest : Text) (hu : StandsFor a u) :
    replaceTriples (u ++ rest) = a::replaceTriples rest := by
  cases hu with
  | self h =>
    rw [List.singleton_append, replaceTriples]
    exact fun _ _ _ he => absurd he h
  | triple h l hh hl hv =>
    simp only [List.cons_append, List.nil_append, replaceTriples]
    rw [if_pos ⟨hh, hl⟩, hv]

theorem replaceTriples_escape (str : Text) : replaceTriples (httpdEscape str) = str := by
  induction str with
  | nil => rfl
  | cons a str ih => rw [escape_cons, replaceTriples_standsFor a _ _ (escapeChar_standsFor a), ih]

theorem escape_injective : Function.Injective httpdEscape := by
  intro s t h
  rw [← replaceTriples_escape s, h, replaceTriples_escape]

/-! ## Through the decoder of the server -/

def plusToBlank (a : UInt8) : UInt8 := if a = 0x2b then 0x20 else a

theorem fromHex_upperHex (c : UInt8) (h : upperHex c = true) : httpdFromHex c = hexValue c := by
  have hall : ∀ c, upperHex c = true → httpdFromHex c = hexValue c :=
    octet_induction (by decide +kernel)
  exact hall c h

theorem unescapeFrom_self (str q rest : Text) (a : UInt8) (h : a ≠ 0x25) :
    unescapeFrom str q (a::rest) = unescapeFrom str (q ++ [plusToBlank a]) rest := by
  rw [unescapeFrom, plusToBlank]
  · exact fun he => absurd he h
  · exact fun _ he => absurd he h
  · exact fun _ _ _ he => absurd he h

theorem unescapeFrom_escapeChar (str q rest : Text) (a : UInt8) :
    unescapeFrom str q (escapeChar a ++ rest) = unescapeFrom str (q ++ [plusToBlank a]) rest := by
  by_cases hp : a = 0x2b
  · rw [hp]
    exact unescapeFrom_self str q rest 0x2b (by decide)
  · have hu := escapeChar_standsFor a
    generalize escapeChar a = u at hu
    cases hu with
    | self h => exact unescapeFrom_self str q rest a h
    | triple h l hh hl hv =>
      simp only [List.cons_append, List.nil_append, unescapeFrom]
      rw [fromHex_upperHex h hh, fromHex_upperHex l hl, hv, plusToBlank, if_neg hp]

theorem unescapeFrom_escape (str q s : Text) :
    unescapeFrom str q (httpdEscape s) = q ++ s.map plusToBlank := by
  induction s generalizing q with
  | nil => rw [List.map_nil, List.append_nil]; rfl
  | cons a s ih =>
    rw [escape_cons, unescapeFrom_escapeChar, ih, List.append_assoc, List.map_cons,
      List.singleton_append]

theorem map_plusToBlank_iff (s : Text) : s.map plusToBlank = s ↔ 0x2b ∉ s := by
  induction s with
  | nil => simp
  | cons a s ih =>
    rw [List.map_cons, List.cons.injEq, ih, List.mem_cons, not_or]
    apply and_congr_left'
    unfold plusToBlank
    constructor
    · rintro h rfl
      exact absurd h (by decide)
    · exact fun h => if_neg (Ne.symm h)

/-- The decoder gives back the text with blanks in the place of its pluses. -/
theorem unescape_urlEncode (s : Text) (hz : 0 ∉ s) :
    httpdUnescape (some (httpdUrlEncode s)) = s.map plusToBlank := by
  have hn : 0 ∉ s.map plusToBlank := by
    intro h
    obtain ⟨a, ha, hb⟩ := List.mem_map.mp h
    unfold plusToBlank at hb
    split_ifs at hb
    · exact absurd hb (by decide)
    · exact hz (hb ▸ ha)
  rw [urlEncode_eq_escape, httpdUnescape, unescapeFrom_escape, List.nil_append, cString_self _ hn]

/-- What was encoded is decoded to itself exactly when it has no plus. -/
theorem unescape_urlEncode_iff (s : Text) (hz : 0 ∉ s) :
    httpdUnescape (some (httpdUrlEncode s)) = s ↔ 0x2b ∉ s := by
  rw [unescape_urlEncode s hz]
  exact map_plusToBlank_iff s

theorem unescape_urlEncode_blank :
    httpdUnescape (some (httpdUrlEncode [0x61, 0x20, 0x62])) = [0x61, 0x20, 0x62] :=
  (unescape_urlEncode_iff [0x61, 0x20, 0x62] (by decide)).mpr (by decide)

theorem unescape_urlEncode_plus :
    ¬ ∀ s : Text, 0 ∉ s → httpdUnescape (some (httpdUrlEncode s)) = s := by
  intro h
  exact absurd (h [0x2b] (by decide)) (by decide)

end FasterConfig.HttpdUrlCodec
