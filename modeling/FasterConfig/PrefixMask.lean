import Mathlib.Data.Nat.Bitwise

/-!
# Masks of leading bits

A mask is built one bit at a time and moved to the high end of the word. Two
words agree under it exactly when their leading bits do, for every length
from none to all of them.
-/

set_option autoImplicit false

namespace FasterConfig.PrefixMask

variable {w : ℕ}

def ones (w : ℕ) : ℕ → BitVec w
  | 0 => 0
  | n+1 => (ones w n <<< 1)+1

def highMask (w n : ℕ) : BitVec w := ones w n <<< (w-n)

theorem ones_eq (w n : ℕ) : ones w n = BitVec.ofNat w (2^n-1) := by
  induction n with
  | zero => rfl
  | succ n ih =>
    have hpos := Nat.two_pow_pos n
    apply BitVec.eq_of_toNat_eq
    rw [ones, ih, BitVec.toNat_add, BitVec.toNat_shiftLeft, BitVec.toNat_ofNat, BitVec.toNat_ofNat,
      Nat.shiftLeft_eq, Nat.mod_mul_mod, Nat.pow_succ]
    show ((2^n-1)*2^1%2^w+1%2^w)%2^w = _
    rw [← Nat.add_mod]
    congr 1
    omega

theorem getLsbD_highMask (n i : ℕ) (h : n ≤ w) :
    (highMask w n).getLsbD i = (decide (w-n ≤ i) && decide (i < w)) := by
  rw [highMask, ones_eq, BitVec.getLsbD_shiftLeft, BitVec.getLsbD_ofNat, Nat.testBit_two_pow_sub_one]
  by_cases h1 : w-n ≤ i
  · by_cases h2 : i < w
    · simp [h1, h2, Nat.not_lt.mpr h1]
      omega
    · simp [h2]
  · simp [h1, Nat.lt_of_not_le h1]

theorem and_highMask_iff (a b : BitVec w) (n : ℕ) (h : n ≤ w) :
    a &&& highMask w n = b &&& highMask w n ↔ ∀ i < n, a.getMsbD i = b.getMsbD i := by
  constructor
  · intro he i hi
    have hbit := congrArg (fun x => x.getLsbD (w-1-i)) he
    simp only [BitVec.getLsbD_and, getLsbD_highMask n _ h] at hbit
    rw [BitVec.getMsbD, BitVec.getMsbD]
    simpa [show w-n ≤ w-1-i by omega, show w-1-i < w by omega, show i < w by omega] using hbit
  · intro hi
    ext i hw
    by_cases hn : w-n ≤ i
    · have hbit := hi (w-1-i) (by omega)
      rw [BitVec.getMsbD, BitVec.getMsbD, show w-1-(w-1-i) = i by omega] at hbit
      simp only [show w-1-i < w by omega, decide_true, Bool.true_and] at hbit
      rw [← BitVec.getLsbD_eq_getElem, ← BitVec.getLsbD_eq_getElem, BitVec.getLsbD_and,
        BitVec.getLsbD_and, hbit]
    · rw [← BitVec.getLsbD_eq_getElem, ← BitVec.getLsbD_eq_getElem, BitVec.getLsbD_and,
        BitVec.getLsbD_and, getLsbD_highMask n i h]
      simp [hn]

end FasterConfig.PrefixMask
