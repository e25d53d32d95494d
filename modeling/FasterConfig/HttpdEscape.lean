import FasterConfig.Strings

/-!
# Encoding of a URL

Characters outside a table are written as a percent sign and two hexadecimal
digits. The table has the slash for paths only and knows no blanks, so the
encoded text is printable, whatever the octets it was made from.
-/

set_option autoImplicit false

namespace FasterConfig.HttpdEscape
open FasterConfig.Strings

/-- From the blank on; bit 0 is xalpha, bit 1 xpalpha and bit 2 path. -/
def isAcceptable : List UInt8 :=
  [0, 7, 7, 0, 7, 0, 7, 7, 7, 7, 7, 6, 7, 7, 7, 4, -- !"#$%&'()*+,-./
   7, 7, 7, 7, 7, 7, 7, 7, 7, 7, 0, 0, 0, 0, 0, 0, -- 0123456789:;<=>?
   7, 7, 7, 7, 7, 7, 7, 7, 7, 7, 7, 7, 7, 7, 7, 7, -- @ABCDEFGHIJKLMNO
   7, 7, 7, 7, 7, 7, 7, 7, 7, 7, 7, 0, 0, 0, 0, 7, -- PQRSTUVWXYZ[\]^_
   0, 7, 7, 7, 7, 7, 7, 7, 7, 7, 7, 7, 7, 7, 7, 7, -- abcdefghijklmno
   7, 7, 7, 7, 7, 7, 7, 7, 7, 7, 7, 0, 0, 0, 0, 0] -- pqrstuvwxyz

def urlXpalphas : UInt8 := 2

def acceptable (a : UInt8) : Bool :=
  a ≠ 0x26 ∧ 32 ≤ a ∧ a < 128 ∧ isAcceptable.getD (a.toNat-32) 0 &&& urlXpalphas ≠ 0

def hex : Text := ascii "0123456789ABCDEF"

def escapeChar (a : UInt8) : Text :=
  if acceptable a then [a]
  else [0x25, hex.getD (a >>> 4).toNat 0, hex.getD (a &&& 15).toNat 0]

def httpdEscape (str : Text) : Text := str.flatMap escapeChar

def httpdUrlEncode (str : Text) : Text :=
  (httpdEscape str).map fun c => if c = 0x20 then 0x2b else c

theorem escapeChar_printable (a c : UInt8) (h : c ∈ escapeChar a) : 0x20 < c ∧ c < 0x7f := by
  have hall : ∀ a, (escapeChar a).all (fun c => 0x20 < c ∧ c < 0x7f) = true :=
    octet_induction (by decide +kernel)
  have ha := hall a
  rw [List.all_eq_true] at ha
  exact of_decide_eq_true (ha c h)

theorem escape_printable (str : Text) (c : UInt8) (h : c ∈ httpdEscape str) :
    0x20 < c ∧ c < 0x7f := by
  obtain ⟨a, -, hc⟩ := List.mem_flatMap.mp h
  exact escapeChar_printable a c hc

/-- No blank is left to be turned into a plus. -/
theorem urlEncode_eq_escape (str : Text) : httpdUrlEncode str = httpdEscape str := by
  have hid : ∀ c ∈ httpdEscape str, (if c = 0x20 then 0x2b else c) = id c := by
    intro c hc
    apply if_neg
    intro he
    exact absurd (escape_printable str c hc).1 (by rw [he]; decide)
  rw [httpdUrlEncode, List.map_congr_left hid, List.map_id]

end FasterConfig.HttpdEscape
