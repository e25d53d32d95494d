import FasterConfig.Cidr
import FasterConfig.DnsServer
import FasterConfig.HttpdHead

/-!
# Addresses as text

The four octets of an address are printed as numbers with dots between them.
The scanner of addresses reads such a text as the address it was printed from.
-/

set_option autoImplicit false

namespace FasterConfig.DottedQuad
open FasterConfig.Strings FasterConfig.Cidr FasterConfig.HttpdHead
open FasterConfig.DnsServer (InAddr)
open FasterConfig.HttpdResponse (digits)
open FasterConfig.HttpdRequest (dot)

/-- `%d.%d.%d.%d`, and what `inet_ntoa` prints. -/
def dotted (a : InAddr) : Text :=
  digits a.a.toNat ++ dot::(digits a.b.toNat ++ dot::(digits a.c.toNat ++ dot::digits a.d.toNat))

def hostOrder (a : InAddr) : BitVec 32 :=
  BitVec.ofNat 32 (((a.a.toNat*256+a.b.toNat)*256+a.c.toNat)*256+a.d.toNat)

def ofHostOrder (v : BitVec 32) : InAddr :=
  ⟨UInt8.ofNat (v.toNat/16777216), UInt8.ofNat (v.toNat/65536), UInt8.ofNat (v.toNat/256),
    UInt8.ofNat v.toNat⟩

theorem ofHostOrder_hostOrder (a : InAddr) : ofHostOrder (hostOrder a) = a := by
  obtain ⟨a, b, c, d⟩ := a
  have ha := a.toNat_lt
  have hb := b.toNat_lt
  have hc := c.toNat_lt
  have hd := d.toNat_lt
  simp only [ofHostOrder, hostOrder, BitVec.toNat_ofNat, InAddr.mk.injEq, ← UInt8.toNat_inj,
    UInt8.toNat_ofNat']
  omega

/-! ## Numbers -/

theorem value_chars (cs : List Char) (h : ∀ c ∈ cs, (UInt8.ofNat c.toNat).toNat = c.toNat) (n : ℕ) :
    (cs.map fun c => UInt8.ofNat c.toNat).foldl (fun n c => n*10+(c.toNat-0x30)) n =
      Nat.ofDigitChars 10 cs n := by
  induction cs generalizing n with
  | nil => rfl
  | cons c cs ih =>
    have hc := h c List.mem_cons_self
    rw [List.map_cons, List.foldl_cons, ih (fun d hd => h d (List.mem_cons_of_mem c hd)), hc,
      Nat.ofDigitChars_cons, Nat.mul_comm]
    rfl

theorem value_digits (n : ℕ) : value (digits n) = n := by
  rw [value, digits, value_chars _ (fun d hd => (digit_octet n d hd).1), Nat.ofDigitChars_ten_toDigits]

theorem digits_number (n : ℕ) {bound : ℕ} (h : n ≤ bound) : IsNumber bound (digits n) where
  nonempty := by
    intro h
    have hn := List.map_eq_nil_iff.mp h
    exact absurd hn Nat.toDigits_ne_nil
  digits := digits_digit n
  value_le := by rwa [value_digits]

def octet (c : UInt8) : Number 255 := ⟨digits c.toNat, digits_number c.toNat (Nat.le_of_lt_succ c.toNat_lt)⟩

/-! ## Addresses -/

def quad (a : InAddr) : Quad := ⟨octet a.a, octet a.b, octet a.c, octet a.d⟩

theorem quad_text (a : InAddr) : (quad a).text = dotted a := rfl

theorem quad_addr (a : InAddr) : (quad a).addr = hostOrder a := by
  simp only [Quad.addr, quad, octet, value_digits, hostOrder]

theorem length_dotted (a : InAddr) : (dotted a).length ≤ 15 := by
  have hd (c : UInt8) : (digits c.toNat).length ≤ 3 := by
    rw [digits, List.length_map, Nat.length_toDigits_le_iff (by decide) (by decide)]
    exact Nat.lt_trans c.toNat_lt (by decide)
  have ha := hd a.a
  have hb := hd a.b
  have hc := hd a.c
  have hdd := hd a.d
  simp only [dotted, List.length_append, List.length_cons]
  omega

theorem scanCidr_dotted (a : InAddr) : scanCidr (dotted a) = some (hostOrder a, 32) := by
  rw [← quad_text, scanCidr_quad, quad_addr]

theorem dotted_injective : Function.Injective dotted := by
  intro a b h
  have hs := scanCidr_dotted a
  rw [h, scanCidr_dotted b] at hs
  have hv : hostOrder b = hostOrder a := (Prod.mk.inj (Option.some.inj hs)).1
  rw [← ofHostOrder_hostOrder a, ← hv, ofHostOrder_hostOrder]

end FasterConfig.DottedQuad
