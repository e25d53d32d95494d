import FasterConfig.Octets
import Mathlib.Data.List.GetD
import Mathlib.Data.List.Infix
import Mathlib.Logic.Function.Basic

/-!
# Memory read through pointers

A pointer into a buffer can be moved anywhere, so what it may read is a
function on places. A message is loaded at the front of such a memory; the
octets behind it are arbitrary.
-/

set_option autoImplicit false

namespace FasterConfig.Memory
open FasterConfig.Octets

abbrev Mem := ℕ → UInt8

def load (msg : List UInt8) (behind : Mem) : Mem := fun i => msg.getD i (behind i)

def slice (mem : Mem) (p : ℕ) : ℕ → List UInt8
  | 0 => []
  | n+1 => mem p::slice mem (p+1) n

def get16At (mem : Mem) (p : ℕ) : UInt16 := get16 (mem p) (mem (p+1))

def store (mem : Mem) (p : ℕ) : List UInt8 → Mem
  | [] => mem
  | c::w => store (Function.update mem p c) (p+1) w

def Holds (mem : Mem) (p : ℕ) (w : List UInt8) : Prop := slice mem p w.length = w

@[simp] theorem length_slice (mem : Mem) (p n : ℕ) : (slice mem p n).length = n := by
  induction n generalizing p with
  | zero => rfl
  | succ n ih => rw [slice, List.length_cons, ih]

theorem slice_add (mem : Mem) (p m n : ℕ) :
    slice mem p (m+n) = slice mem p m ++ slice mem (p+m) n := by
  induction m generalizing p with
  | zero => rw [Nat.zero_add, Nat.add_zero, slice, List.nil_append]
  | succ m ih =>
    rw [Nat.succ_add, slice, slice, ih, List.cons_append, Nat.add_right_comm, Nat.add_assoc p m 1]

theorem holds_nil (mem : Mem) (p : ℕ) : Holds mem p [] := rfl

theorem holds_cons (mem : Mem) (p : ℕ) (c : UInt8) (w : List UInt8) :
    Holds mem p (c::w) ↔ mem p = c ∧ Holds mem (p+1) w := by
  rw [Holds, List.length_cons, slice, List.cons.injEq]
  rfl

theorem holds_append (mem : Mem) (p : ℕ) (u w : List UInt8) :
    Holds mem p (u ++ w) ↔ Holds mem p u ∧ Holds mem (p+u.length) w := by
  rw [Holds, List.length_append, slice_add]
  constructor
  · exact fun h => List.append_inj h (length_slice mem p _)
  · exact fun h => congrArg₂ _ h.1 h.2

theorem holds_slice (mem : Mem) (p n : ℕ) : Holds mem p (slice mem p n) := by
  rw [Holds, length_slice]

theorem Holds.part (mem : Mem) (p q : ℕ) (u w : List UInt8) (h : Holds mem p u)
    (hw : w <+: u.drop q) : Holds mem (p+q) w := by
  obtain ⟨t, ht⟩ := hw
  by_cases hq : q ≤ u.length
  · rw [← List.take_append_drop q u, ← ht, holds_append, holds_append, List.length_take_of_le hq] at h
    exact h.2.1
  · rw [List.drop_eq_nil_of_le (by omega), List.append_eq_nil_iff] at ht
    rw [ht.1]
    exact holds_nil _ _

theorem slice_prefix (mem : Mem) (p q n : ℕ) (u : List UInt8) (h : Holds mem p u)
    (hn : q+n ≤ u.length) : slice mem (p+q) n <+: u.drop q := by
  obtain ⟨k, hk⟩ := Nat.exists_eq_add_of_le hn
  rw [Holds, hk, slice_add, slice_add] at h
  rw [← h, List.append_assoc, List.drop_append_of_le_length (by simp)]
  simp only [List.drop_of_length_le (Nat.le_of_eq (length_slice mem p q)), List.nil_append]
  exact List.prefix_append _ _

theorem Holds.within {mem : Mem} {u : List UInt8} (h : Holds mem 0 u) (q : ℕ) (w : List UInt8)
    (hw : w <+: u.drop q) : Holds mem q w := by
  have hpart := h.part mem 0 q u w hw
  rwa [Nat.zero_add] at hpart

theorem Holds.slice_prefix {mem : Mem} {u : List UInt8} (h : Holds mem 0 u) (q n : ℕ)
    (hn : q+n ≤ u.length) : slice mem q n <+: u.drop q := by
  have hslice := Memory.slice_prefix mem 0 q n u h hn
  rwa [Nat.zero_add] at hslice

theorem get16At_holds (mem : Mem) (p : ℕ) (v : UInt16) (h : Holds mem p (put16 v)) :
    get16At mem p = v := by
  rw [put16, holds_cons, holds_cons] at h
  rw [get16At, h.1, h.2.1, get16_put16]

theorem holds_get16At (mem : Mem) (p : ℕ) : Holds mem p (put16 (get16At mem p)) := by
  rw [get16At, put16_get16, holds_cons, holds_cons]
  exact ⟨rfl, rfl, holds_nil _ _⟩

theorem store_append (mem : Mem) (p : ℕ) (u w : List UInt8) :
    store mem p (u ++ w) = store (store mem p u) (p+u.length) w := by
  induction u generalizing mem p with
  | nil => rfl
  | cons c u ih => rw [List.cons_append, store, ih, store, List.length_cons, Nat.add_right_comm,
      Nat.add_assoc]

theorem store_below (mem : Mem) (p i : ℕ) (w : List UInt8) (h : i < p) :
    store mem p w i = mem i := by
  induction w generalizing mem p with
  | nil => rfl
  | cons c w ih =>
    rw [store, ih _ (p+1) (by omega)]
    exact Function.update_of_ne (by omega) _ _

theorem store_last (mem : Mem) (p : ℕ) (w : List UInt8) (a b : UInt8) :
    store (store mem p (w ++ [a])) (p+w.length) [b] = store mem p (w ++ [b]) := by
  rw [store_append, store_append]
  simp only [store, Function.update_idem]

theorem holds_store (mem : Mem) (p : ℕ) (w : List UInt8) : Holds (store mem p w) p w := by
  induction w generalizing mem p with
  | nil => rfl
  | cons c w ih =>
    rw [holds_cons, store, store_below _ _ _ _ (Nat.lt_succ_self p)]
    exact ⟨Function.update_self _ _ _, ih _ _⟩

theorem holds_store_behind (mem : Mem) (p : ℕ) (w u : List UInt8) (h : Holds mem p w) :
    Holds (store mem (p+w.length) u) p (w ++ u) := by
  rw [holds_append]
  constructor
  · induction w generalizing p with
    | nil => exact holds_nil _ _
    | cons c w ih =>
      rw [holds_cons] at h ⊢
      rw [List.length_cons, Nat.add_comm w.length 1, ← Nat.add_assoc]
      exact ⟨(store_below _ _ _ _ (by omega)).trans h.1, ih (p+1) h.2⟩
  · exact holds_store _ _ _

theorem load_append (msg more : List UInt8) (behind : Mem) :
    load (msg ++ more) behind = load msg fun i => more.getD (i-msg.length) (behind i) := by
  funext i
  simp only [load]
  by_cases h : i < msg.length
  · rw [List.getD_append _ _ _ _ h, List.getD_eq_getElem _ _ h, List.getD_eq_getElem _ _ h]
  · rw [List.getD_append_right _ _ _ _ (by omega), List.getD_eq_default msg _ (by omega)]

theorem slice_load (msg : List UInt8) (behind : Mem) (p n : ℕ) (h : p+n ≤ msg.length) :
    slice (load msg behind) p n = (msg.drop p).take n := by
  induction n generalizing p with
  | zero => rfl
  | succ n ih =>
    have hp : p < msg.length := by omega
    rw [slice, ih (p+1) (by omega), List.drop_eq_getElem_cons hp, List.take_succ_cons, load,
      List.getD_eq_getElem _ _ hp]

theorem holds_load (msg : List UInt8) (behind : Mem) (p : ℕ) (w : List UInt8)
    (h : p+w.length ≤ msg.length) : Holds (load msg behind) p w ↔ w <+: msg.drop p := by
  rw [Holds, slice_load msg behind p _ h, List.prefix_iff_eq_take, eq_comm]

end FasterConfig.Memory
