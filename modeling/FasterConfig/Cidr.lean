import FasterConfig.HttpdRequest
import Mathlib.Data.BitVec

/-!
# Addresses with a prefix length

An address is four numbers with dots, and may have a slash and the length of
its prefix behind it. The scanner looks for the separators and reads with
`atoi` whatever stands between them, so a field need not be a number. It only
refuses what leads with a number out of range, or has too few dots.
-/

set_option autoImplicit false

namespace FasterConfig.Cidr
open FasterConfig.Strings
open FasterConfig.HttpdRequest (dot)

/-! ## Numbers -/

def isSpace (c : UInt8) : Bool := c = 0x20 ∨ (0x09 ≤ c ∧ c ≤ 0x0d)

def isDigit (c : UInt8) : Bool := 0x30 ≤ c ∧ c ≤ 0x39

def value (digits : Text) : ℕ := digits.foldl (fun n c => n*10+(c.toNat-0x30)) 0

def leading (s : Text) : ℤ := value (s.takeWhile isDigit)

def signed (s : Text) : ℤ :=
  if s.head? = some 0x2d then -leading s.tail
  else if s.head? = some 0x2b then leading s.tail
  else leading s

/-- The number that the digits stand for. C leaves open what comes of one that no `int` holds;
it is assumed here that it is wrapped with the others, where a C library may as well stop at the
largest `int`. -/
def atoi (s : Text) : ℤ := signed (s.dropWhile isSpace)

def number (s : Text) : BitVec 32 := BitVec.ofInt 32 (atoi s)

/-! ## The scanner -/

def address (res1 res2 res3 res4 : BitVec 32) : BitVec 32 :=
  (res1 <<< 24)+(res2 <<< 16)+(res3 <<< 8)+res4

/-- The number behind the first slash, 32 without one. -/
def lengthField (cp : Text) : BitVec 32 :=
  match strchr slash cp with
  | none => 32
  | some (_, cp) => number cp

/-- `*result` and `*length`, if it returns 0. -/
def scanCidr (val : Text) : Option (BitVec 32 × BitVec 32) := do
  let res1 := number val
  let (_, cp) ← strchr dot val
  let res2 := number cp
  let (_, cp) ← strchr dot cp
  let res3 := number cp
  let (_, cp) ← strchr dot cp
  let res4 := number cp
  let res5 := lengthField cp
  if 255 < res1 ∨ 255 < res2 ∨ 255 < res3 ∨ 255 < res4 ∨ 32 < res5 then none
  else some (address res1 res2 res3 res4, res5)

/-! ## What it should accept -/

structure IsNumber (bound : ℕ) (t : Text) : Prop where
  nonempty : t ≠ []
  digits : ∀ c ∈ t, isDigit c = true
  value_le : value t ≤ bound

abbrev Number (bound : ℕ) := { t : Text // IsNumber bound t }

structure Quad where
  a : Number 255
  b : Number 255
  c : Number 255
  d : Number 255

def Quad.text (q : Quad) : Text :=
  q.a.val ++ dot::(q.b.val ++ dot::(q.c.val ++ dot::q.d.val))

def Quad.addr (q : Quad) : BitVec 32 :=
  BitVec.ofNat 32 (((value q.a*256+value q.b)*256+value q.c)*256+value q.d)

structure Block where
  quad : Quad
  len : Option (Number 32)

def Block.text (b : Block) : Text :=
  match b.len with
  | none => b.quad.text
  | some n => b.quad.text ++ slash::n.val

def Block.length (b : Block) : ℕ := b.len.elim 32 fun n => value n.val

theorem Block.length_le (b : Block) : b.length ≤ 32 := by
  rw [Block.length]
  cases b.len with
  | none => exact Nat.le_refl 32
  | some n => exact n.property.value_le

/-! ## Reading a number -/

theorem leading_stop (t rest : Text) (c : UInt8) (hc : isDigit c = false) :
    leading (t ++ c::rest) = leading t := by
  rw [leading, takeWhile_stop isDigit hc, leading]

def IsStop (c : UInt8) : Prop := c = dot ∨ c = slash

theorem stops (c : UInt8) (h : IsStop c) :
    isDigit c = false ∧ isSpace c = false ∧ c ≠ 0x2d ∧ c ≠ 0x2b := by
  rcases h with rfl | rfl <;> decide

theorem signed_stop (t rest : Text) (c : UInt8) (hc : IsStop c) :
    signed (t ++ c::rest) = signed t := by
  obtain ⟨hd, -, hm, hp⟩ := stops c hc
  cases t with
  | nil =>
    rw [List.nil_append, signed, List.head?_cons, if_neg (by simpa using hm),
      if_neg (by simpa using hp)]
    exact leading_stop [] rest c hd
  | cons x t =>
    rw [List.cons_append, signed, signed, List.head?_cons, List.head?_cons, List.tail_cons,
      List.tail_cons, leading_stop t rest c hd, ← List.cons_append, leading_stop (x::t) rest c hd]

theorem atoi_stop (t rest : Text) (c : UInt8) (hc : IsStop c) : atoi (t ++ c::rest) = atoi t := by
  rw [atoi, dropWhile_stop isSpace (stops c hc).2.1, signed_stop _ rest c hc, atoi]

theorem number_stop (t rest : Text) (c : UInt8) (hc : IsStop c) :
    number (t ++ c::rest) = number t := by
  rw [number, atoi_stop t rest c hc, number]

theorem digit_plain (c : UInt8) (h : isDigit c = true) :
    isSpace c = false ∧ c ≠ 0x2d ∧ c ≠ 0x2b ∧ ¬ IsStop c := by
  refine ⟨?_, ?_, ?_, ?_⟩
  · have hall : ∀ c, isDigit c = true → isSpace c = false := octet_induction (by decide +kernel)
    exact hall c h
  · rintro rfl
    exact absurd h (by decide)
  · rintro rfl
    exact absurd h (by decide)
  · intro hs
    rw [(stops c hs).1] at h
    exact absurd h Bool.false_ne_true

theorem atoi_number {bound : ℕ} (t : Text) (h : IsNumber bound t) : atoi t = value t := by
  obtain ⟨c, s, rfl⟩ := List.exists_cons_of_ne_nil h.nonempty
  obtain ⟨hs, hm, hp, -⟩ := digit_plain c (h.digits c List.mem_cons_self)
  have htake : (c::s).takeWhile isDigit = c::s := List.takeWhile_eq_self_iff.mpr h.digits
  rw [atoi, List.dropWhile_cons_of_neg (by simp [hs]), signed, List.head?_cons,
    if_neg (by simpa using hm), if_neg (by simpa using hp), leading, htake]

theorem number_number {bound : ℕ} (t : Text) (h : IsNumber bound t) :
    number t = BitVec.ofNat 32 (value t) := by
  rw [number, atoi_number t h]
  rfl

theorem stop_not_mem {bound : ℕ} (t : Text) (h : IsNumber bound t) (c : UInt8) (hc : IsStop c) :
    c ∉ t := fun hm => (digit_plain c (h.digits c hm)).2.2.2 hc

/-! ## The fields of a text -/

def OutOfRange (n1 n2 n3 n4 n5 : BitVec 32) : Prop :=
  255 < n1 ∨ 255 < n2 ∨ 255 < n3 ∨ 255 < n4 ∨ 32 < n5

instance (n1 n2 n3 n4 n5 : BitVec 32) : Decidable (OutOfRange n1 n2 n3 n4 n5) :=
  inferInstanceAs (Decidable (_ ∨ _))

def scanned (n1 n2 n3 n4 n5 : BitVec 32) : Option (BitVec 32 × BitVec 32) :=
  if OutOfRange n1 n2 n3 n4 n5 then none else some (address n1 n2 n3 n4, n5)

theorem scanCidr_bind (s : Text) :
    scanCidr s = (strchr dot s).bind fun r1 => (strchr dot r1.2).bind fun r2 =>
      (strchr dot r2.2).bind fun r3 =>
        scanned (number s) (number r1.2) (number r2.2) (number r3.2) (lengthField r3.2) := by
  rw [scanCidr]
  cases strchr dot s with
  | none => rfl
  | some r1 =>
    cases h1 : strchr dot r1.2 with
    | none => simp [h1]
    | some r2 =>
      cases h2 : strchr dot r2.2 with
      | none => simp [h1, h2]
      | some r3 =>
        simp only [Option.bind_eq_bind, Option.bind_some, h1, h2]
        exact if_congr Iff.rfl rfl rfl

structure Fields (s t1 t2 t3 rest : Text) : Prop where
  text : s = t1 ++ dot::(t2 ++ dot::(t3 ++ dot::rest))
  first : dot ∉ t1
  second : dot ∉ t2
  third : dot ∉ t3

theorem scanCidr_fields (s t1 t2 t3 rest : Text) (h : Fields s t1 t2 t3 rest) :
    scanCidr s = scanned (number t1) (number t2) (number t3) (number rest) (lengthField rest) := by
  have hd : IsStop dot := .inl rfl
  rw [scanCidr_bind, h.text, strchr_append _ _ _ h.first, Option.bind_some,
    strchr_append _ _ _ h.second, Option.bind_some, strchr_append _ _ _ h.third, Option.bind_some,
    number_stop t1 _ dot hd, number_stop t2 _ dot hd, number_stop t3 _ dot hd]

theorem fields_or_few (s : Text) : s.count dot < 3 ∨ ∃ t1 t2 t3 rest, Fields s t1 t2 t3 rest := by
  by_cases h : s.count dot < 3
  · exact .inl h
  · obtain ⟨t1, s1, rfl, h1⟩ := List.eq_append_cons_of_mem
      (List.count_pos_iff.mp (by omega : 0 < s.count dot))
    rw [List.count_append, List.count_cons_self, List.count_eq_zero_of_not_mem h1] at h
    obtain ⟨t2, s2, rfl, h2⟩ := List.eq_append_cons_of_mem
      (List.count_pos_iff.mp (by omega : 0 < s1.count dot))
    rw [List.count_append, List.count_cons_self, List.count_eq_zero_of_not_mem h2] at h
    obtain ⟨t3, s3, rfl, h3⟩ := List.eq_append_cons_of_mem
      (List.count_pos_iff.mp (by omega : 0 < s2.count dot))
    exact .inr ⟨t1, t2, t3, s3, rfl, h1, h2, h3⟩

theorem count_strchr (s : Text) (r : Text × Text) (h : strchr dot s = some r) :
    r.2.count dot < s.count dot := by
  rw [strchr_eq_append dot s r h, List.count_append, List.count_cons_self]
  omega

theorem scanCidr_few (s : Text) (h : s.count dot < 3) : scanCidr s = none := by
  rw [scanCidr_bind]
  cases h1 : strchr dot s with
  | none => rfl
  | some r1 =>
    have hc1 := count_strchr s r1 h1
    rw [Option.bind_some]
    cases h2 : strchr dot r1.2 with
    | none => rfl
    | some r2 =>
      have hc2 := count_strchr r1.2 r2 h2
      rw [Option.bind_some, strchr_none dot r2.2 (List.count_eq_zero.mp (by omega))]
      rfl

/-- Too few dots, or a field that leads with a number out of its range. -/
def Refused (s : Text) : Prop :=
  s.count dot < 3 ∨ ∃ t1 t2 t3 rest, Fields s t1 t2 t3 rest ∧
    OutOfRange (number t1) (number t2) (number t3) (number rest) (lengthField rest)

theorem scanCidr_none_iff (s : Text) : scanCidr s = none ↔ Refused s := by
  constructor
  · intro h
    rcases fields_or_few s with hf | ⟨t1, t2, t3, rest, hf⟩
    · exact .inl hf
    · rw [scanCidr_fields s t1 t2 t3 rest hf, scanned] at h
      split_ifs at h with ho
      exact .inr ⟨t1, t2, t3, rest, hf, ho⟩
  · rintro (h | ⟨t1, t2, t3, rest, hf, ho⟩)
    · exact scanCidr_few s h
    · rw [scanCidr_fields s t1 t2 t3 rest hf, scanned, if_pos ho]

/-! ## Well-formed texts -/

theorem number_lt {bound : ℕ} (hb : bound < 2^32) (n : Number bound) :
    ¬ BitVec.ofNat 32 bound < number n.val := by
  have hv := n.property.value_le
  rw [number_number n.val n.property, BitVec.lt_def, BitVec.toNat_ofNat, BitVec.toNat_ofNat,
    Nat.mod_eq_of_lt hb, Nat.mod_eq_of_lt (by omega)]
  omega

theorem address_eq (q : Quad) :
    address (number q.a) (number q.b) (number q.c) (number q.d) = q.addr := by
  have ha := q.a.property.value_le
  have hb := q.b.property.value_le
  have hc := q.c.property.value_le
  have hd := q.d.property.value_le
  rw [number_number _ q.a.property, number_number _ q.b.property, number_number _ q.c.property,
    number_number _ q.d.property, address, Quad.addr]
  apply BitVec.eq_of_toNat_eq
  simp only [BitVec.toNat_add, BitVec.toNat_shiftLeft, BitVec.toNat_ofNat, Nat.shiftLeft_eq]
  omega

theorem quad_fields (q : Quad) (tail : Text) :
    Fields (q.text ++ tail) q.a q.b q.c (q.d.val ++ tail) where
  text := by simp [Quad.text]
  first := stop_not_mem _ q.a.property dot (.inl rfl)
  second := stop_not_mem _ q.b.property dot (.inl rfl)
  third := stop_not_mem _ q.c.property dot (.inl rfl)

theorem scanned_quad (q : Quad) (n : BitVec 32) (hn : ¬ 32 < n) :
    scanned (number q.a) (number q.b) (number q.c) (number q.d) n = some (q.addr, n) := by
  have ho : ¬ OutOfRange (number q.a) (number q.b) (number q.c) (number q.d) n := by
    rintro (h | h | h | h | h)
    · exact number_lt (by decide) q.a h
    · exact number_lt (by decide) q.b h
    · exact number_lt (by decide) q.c h
    · exact number_lt (by decide) q.d h
    · exact hn h
  rw [scanned, if_neg ho, address_eq]

theorem scanCidr_quad (q : Quad) : scanCidr q.text = some (q.addr, 32) := by
  have hs := strchr_none slash _ (stop_not_mem _ q.d.property slash (.inr rfl))
  have hf := scanCidr_fields _ _ _ _ _ (quad_fields q [])
  rw [List.append_nil, List.append_nil, lengthField, hs] at hf
  rw [hf, scanned_quad q 32 (by decide)]

theorem scanCidr_text (b : Block) :
    scanCidr b.text = some (b.quad.addr, BitVec.ofNat 32 b.length) := by
  obtain ⟨q, len⟩ := b
  cases len with
  | none => exact scanCidr_quad q
  | some n =>
    have hs := strchr_append slash _ n.val (stop_not_mem _ q.d.property slash (.inr rfl))
    have hf := scanCidr_fields _ _ _ _ _ (quad_fields q (slash::n.val))
    rw [number_stop _ _ slash (.inr rfl), lengthField, hs,
      scanned_quad q _ (number_lt (by decide) n), number_number _ n.property] at hf
    exact hf

/-- The scanner tells well-formed texts from others exactly where it refuses all others. -/
theorem scanCidr_exact_iff (s : Text) :
    ((∀ b : Block, b.text = s → scanCidr s = some (b.quad.addr, BitVec.ofNat 32 b.length)) ∧
        ((∀ b : Block, b.text ≠ s) → scanCidr s = none)) ↔
      (∃ b : Block, b.text = s) ∨ Refused s := by
  rw [← scanCidr_none_iff]
  constructor
  · rintro ⟨-, h⟩
    by_cases hb : ∃ b : Block, b.text = s
    · exact .inl hb
    · exact .inr (h fun b he => hb ⟨b, he⟩)
  · intro h
    constructor
    · rintro b rfl
      exact scanCidr_text b
    · intro hn
      exact h.resolve_left fun ⟨b, he⟩ => hn b he

theorem ends_digit (pre : Text) {bound : ℕ} (n : Number bound) (c : UInt8)
    (h : (pre ++ n.val).getLast? = some c) : isDigit c = true := by
  rw [List.getLast?_append_of_ne_nil _ n.property.nonempty] at h
  exact n.property.digits c (List.mem_of_getLast? h)

theorem text_ends_digit (b : Block) (c : UInt8) (h : b.text.getLast? = some c) :
    isDigit c = true := by
  obtain ⟨q, len⟩ := b
  cases len with
  | none =>
    have ht : (⟨q, none⟩ : Block).text =
        (q.a.val ++ dot::(q.b.val ++ dot::(q.c.val ++ [dot]))) ++ q.d.val := by
      simp [Block.text, Quad.text]
    rw [ht] at h
    exact ends_digit _ q.d c h
  | some n =>
    have ht : (⟨q, some n⟩ : Block).text = (q.text ++ [slash]) ++ n.val := by simp [Block.text]
    rw [ht] at h
    exact ends_digit _ n c h

theorem scanCidr_no_length :
    ¬ ∀ s : Text,
      (∀ b : Block, b.text = s → scanCidr s = some (b.quad.addr, BitVec.ofNat 32 b.length)) ∧
        ((∀ b : Block, b.text ≠ s) → scanCidr s = none) := by
  intro h
  have hn : ∀ b : Block, b.text ≠ ascii "10.0.0.0/" := by
    intro b hb
    have hlast : b.text.getLast? = some slash := by rw [hb]; decide
    exact absurd (text_ends_digit b slash hlast) (by decide)
  exact absurd ((h (ascii "10.0.0.0/")).2 hn) (by decide +kernel)

end FasterConfig.Cidr
