import Mathlib.Data.List.Basic
import Mathlib.Logic.Function.Iterate

/-!
# Maps that settle

What two lists have in common in front may grow under a map by a length that
does not depend on them. If the map also bounds its values, its iterates come
to one list, from wherever they start.
-/

set_option autoImplicit false

namespace FasterConfig.Settling

variable {α : Type*}

/-- What two arguments have in common in front grows by `g`. -/
def Grows (f : List α → List α) (g : ℕ) : Prop :=
  ∀ m s t, s.take m = t.take m → (f s).take (m+g) = (f t).take (m+g)

theorem grows_append (pre : List α) : Grows (pre ++ ·) pre.length := by
  intro m s t h
  rw [Nat.add_comm, List.take_length_add_append, List.take_length_add_append, h]

theorem grows_take (n : ℕ) : Grows (List.take n (α := α)) 0 := by
  intro m s t h
  rw [Nat.add_zero, List.take_take, List.take_take, Nat.min_comm, ← List.take_take, h, List.take_take]

theorem take_flatMap (e : α → List α) (he : ∀ a, e a ≠ []) (m : ℕ) (s : List α) :
    (s.flatMap e).take m = ((s.take m).flatMap e).take m := by
  induction s generalizing m with
  | nil => rw [List.take_nil]
  | cons a s ih =>
    cases m with
    | zero => rw [List.take_zero, List.take_zero]
    | succ m =>
      have hpos := List.length_pos_of_ne_nil (he a)
      have hm : m+1-(e a).length ≤ m := by omega
      have hcut := congrArg (List.take (m+1-(e a).length)) (ih m)
      rw [List.take_take, List.take_take, Nat.min_eq_left hm] at hcut
      rw [List.take_succ_cons, List.flatMap_cons, List.flatMap_cons, List.take_append, List.take_append,
        hcut]

theorem grows_flatMap (e : α → List α) (he : ∀ a, e a ≠ []) : Grows (List.flatMap e) 0 := by
  intro m s t h
  rw [Nat.add_zero, take_flatMap e he, h, ← take_flatMap e he]

theorem Grows.comp {f f' : List α → List α} {g g' : ℕ} (h : Grows f g) (h' : Grows f' g') :
    Grows (f ∘ f') (g'+g) := by
  intro m s t hst
  rw [← Nat.add_assoc]
  exact h (m+g') (f' s) (f' t) (h' m s t hst)

theorem Grows.iterate {f : List α → List α} {g : ℕ} (h : Grows f g) (n : ℕ) : Grows f^[n] (n*g) := by
  induction n with
  | zero =>
    intro m s t hst
    rwa [Nat.zero_mul, Nat.add_zero]
  | succ n ih =>
    rw [Function.iterate_succ', Nat.succ_mul]
    exact h.comp ih

variable {f : List α → List α} {g bound n : ℕ}

/-- Two walks meet as soon as what they gain covers the longest value. -/
theorem Grows.meets (h : Grows f g) (hb : ∀ s, (f s).length ≤ bound) (hn : 0 < n)
    (hg : bound ≤ n*g) (s t : List α) : f^[n] s = f^[n] t := by
  have hlen : ∀ s, (f^[n] s).length ≤ n*g := by
    intro s
    obtain ⟨k, rfl⟩ := Nat.exists_eq_add_of_le' hn
    rw [Function.iterate_succ_apply']
    exact Nat.le_trans (hb _) hg
  have hagree := h.iterate n 0 s t (by rw [List.take_zero, List.take_zero])
  rwa [Nat.zero_add, List.take_of_length_le (hlen s), List.take_of_length_le (hlen t)] at hagree

theorem Grows.settled (h : Grows f g) (hb : ∀ s, (f s).length ≤ bound) (hn : 0 < n)
    (hg : bound ≤ n*g) (k : ℕ) (hk : n ≤ k) (s t : List α) : f^[k] s = f^[n] t := by
  obtain ⟨d, rfl⟩ := Nat.exists_eq_add_of_le hk
  rw [Function.iterate_add_apply]
  exact h.meets hb hn hg _ t

end FasterConfig.Settling
