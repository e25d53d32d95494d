import Mathlib.Data.List.Basic

/-!
# Octet arrays

Sixteen-bit values travel high octet first. Copying into an array replaces
a block of it; arrays of a fixed size are received into from their start,
and what a short copy does not reach stays.
-/

set_option autoImplicit false

namespace FasterConfig.Octets

theorem ofNat_inj_of_lt (a b : ℕ) (ha : a < 256) (hb : b < 256)
    (h : UInt8.ofNat a = UInt8.ofNat b) : a = b := by
  have ht := congrArg UInt8.toNat h
  rw [UInt8.toNat_ofNat', UInt8.toNat_ofNat'] at ht
  omega

def get16 (hi lo : UInt8) : UInt16 := UInt16.ofNat (hi.toNat*256+lo.toNat)

def put16 (v : UInt16) : List UInt8 := [UInt8.ofNat (v.toNat/256), UInt8.ofNat v.toNat]

@[simp] theorem length_put16 (v : UInt16) : (put16 v).length = 2 := rfl

theorem toNat_get16 (hi lo : UInt8) : (get16 hi lo).toNat = hi.toNat*256+lo.toNat := by
  have h1 := hi.toNat_lt
  have h2 := lo.toNat_lt
  rw [get16, UInt16.toNat_ofNat']
  omega

@[simp] theorem put16_get16 (hi lo : UInt8) : put16 (get16 hi lo) = [hi, lo] := by
  have h2 := lo.toNat_lt
  have hd : (hi.toNat*256+lo.toNat)/256 = hi.toNat := by omega
  have hm : UInt8.ofNat (hi.toNat*256+lo.toNat) = lo := by
    apply UInt8.toNat_inj.mp
    rw [UInt8.toNat_ofNat']
    omega
  simp only [put16, toNat_get16, hd, hm, UInt8.ofNat_toNat]

@[simp] theorem get16_put16 (v : UInt16) :
    get16 (UInt8.ofNat (v.toNat/256)) (UInt8.ofNat v.toNat) = v := by
  have hv := v.toNat_lt
  apply UInt16.toNat_inj.mp
  rw [toNat_get16, UInt8.toNat_ofNat', UInt8.toNat_ofNat']
  omega

theorem get16_eq_iff (hi lo : UInt8) (v : UInt16) :
    get16 hi lo = v ↔ hi = UInt8.ofNat (v.toNat/256) ∧ lo = UInt8.ofNat v.toNat := by
  constructor
  · rintro rfl
    have h := put16_get16 hi lo
    simp only [put16, List.cons.injEq, and_true] at h
    exact ⟨h.1.symm, h.2.symm⟩
  · rintro ⟨rfl, rfl⟩
    exact get16_put16 v

theorem get16_eq_one (hi lo : UInt8) : get16 hi lo = 1 ↔ hi = 0 ∧ lo = 1 := get16_eq_iff hi lo 1

theorem get16_eq_zero (hi lo : UInt8) : get16 hi lo = 0 ↔ hi = 0 ∧ lo = 0 := get16_eq_iff hi lo 0

def get32 (hi lo : UInt16) : UInt32 := UInt32.ofNat (hi.toNat*65536+lo.toNat)

def high16 (v : UInt32) : UInt16 := UInt16.ofNat (v.toNat/65536)
def low16 (v : UInt32) : UInt16 := UInt16.ofNat v.toNat

def put32 (v : UInt32) : List UInt8 := put16 (high16 v) ++ put16 (low16 v)

@[simp] theorem get32_halves (v : UInt32) : get32 (high16 v) (low16 v) = v := by
  have hv := v.toNat_lt
  apply UInt32.toNat_inj.mp
  rw [get32, high16, low16, UInt32.toNat_ofNat', UInt16.toNat_ofNat', UInt16.toNat_ofNat']
  omega

/-! ## Copies -/

/-- `memcpy(data + off, src, n)` with `n` the length of `src`. -/
def memcpy (data : List UInt8) (off : ℕ) (src : List UInt8) : List UInt8 :=
  data.take off ++ src ++ data.drop (off+src.length)

theorem length_memcpy (data src : List UInt8) (off : ℕ) (h : off ≤ data.length) :
    (memcpy data off src).length = max data.length (off+src.length) := by
  simp only [memcpy, List.length_append, List.length_take, List.length_drop]
  omega

theorem take_memcpy (data src : List UInt8) (off n : ℕ) (h : off ≤ data.length)
    (hn : n = off+src.length) : (memcpy data off src).take n = data.take off ++ src := by
  have hl : (data.take off ++ src).length = n := by
    rw [List.length_append, List.length_take_of_le h, hn]
  rw [memcpy, ← hl, List.take_left]

theorem memcpy_append (done rest src : List UInt8) :
    memcpy (done ++ rest) done.length src = done ++ src ++ rest.drop src.length := by
  rw [memcpy, List.take_left, List.drop_append, List.drop_eq_nil_of_le (Nat.le_add_right _ _),
    Nat.add_sub_cancel_left, List.nil_append]

def calloc (n : ℕ) : List UInt8 := List.replicate n 0

structure CArray (n : ℕ) where
  octets : List UInt8
  size : octets.length = n
  deriving DecidableEq

namespace CArray
variable {n : ℕ}

def zero (n : ℕ) : CArray n := ⟨calloc n, by simp [calloc]⟩

instance : Inhabited (CArray n) := ⟨zero n⟩

def get (b : CArray n) (i : ℕ) : UInt8 := b.octets.getD i 0

/-- Copy at most `n` octets to the start; the octets behind them stay. -/
def receive (b : CArray n) (d : List UInt8) : CArray n :=
  ⟨d.take n ++ b.octets.drop d.length, by
    have h := b.size
    simp only [List.length_append, List.length_take, List.length_drop]
    omega⟩

theorem receive_prefix (b : CArray n) (d : List UInt8) :
    (b.receive d).octets.take (d.take n).length = d.take n := by
  simp only [receive]
  rw [List.take_left]

theorem get_receive_new (b : CArray n) (d : List UInt8) (i : ℕ) (hi : i < d.length) (hn : i < n) :
    (b.receive d).get i = d.getD i 0 := by
  have hl : i < (d.take n).length := by rw [List.length_take]; omega
  simp only [get, receive, List.getD_eq_getElem?_getD]
  rw [List.getElem?_append_left hl, List.getElem?_take, if_pos hn]

theorem get_receive_old (b : CArray n) (d : List UInt8) (i : ℕ) (hi : d.length ≤ i) (hn : i < n) :
    (b.receive d).get i = b.get i := by
  have hl : (d.take n).length = d.length := by rw [List.length_take]; omega
  simp only [get, receive, List.getD_eq_getElem?_getD]
  rw [List.getElem?_append_right (by omega), hl, List.getElem?_drop, Nat.add_sub_of_le hi]

end CArray

end FasterConfig.Octets
