import Mathlib.Data.List.Basic
import Mathlib.Logic.Function.Basic

/-!
# Chains of links

A chain leads from a link through its places to a link that is empty. A search
along it tells the place it stopped at and the one before. Fuel bounds the
search; a chain needs one unit more than it has places.
-/

set_option autoImplicit false

namespace FasterConfig.LinkedChain

variable {ι : Type*}

/-- From `p` on the links lead through these places and end. -/
def Chain (next : ι → Option ι) : Option ι → List ι → Prop
  | p, [] => p = none
  | p, i::is => p = some i ∧ Chain next (next i) is

/-- The first place that is sought, and the place before it or else `last`. -/
def seek (next : ι → Option ι) (sought : ι → Bool) :
    ℕ → Option ι → Option ι → Option (Option ι × Option ι)
  | 0, _, _ => none
  | _+1, last, none => some (last, none)
  | fuel+1, last, some i =>
    if sought i then some (last, some i) else seek next sought fuel (some i) (next i)

def follow (next : ι → Option ι) : ℕ → Option ι → Option (List ι)
  | 0, _ => none
  | _+1, none => some []
  | fuel+1, some i => (follow next fuel (next i)).map (i::·)

theorem Chain.congr {next next' : ι → Option ι} {p : Option ι} {is : List ι} (h : Chain next p is)
    (he : ∀ i ∈ is, next' i = next i) : Chain next' p is := by
  induction is generalizing p with
  | nil => exact h
  | cons i is ih =>
    obtain ⟨hp, hr⟩ := h
    refine ⟨hp, ?_⟩
    rw [he i List.mem_cons_self]
    exact ih hr fun j hj => he j (List.mem_cons_of_mem i hj)

theorem Chain.link [DecidableEq ι] {next : ι → Option ι} {p : Option ι} {is : List ι} {i j : ι}
    (h : Chain next p (is ++ [i])) (hn : (is ++ [i, j]).Nodup) (hj : next j = none) :
    Chain (Function.update next i (some j)) p (is ++ [i, j]) := by
  induction is generalizing p with
  | nil =>
    have hij : j ≠ i := by
      rintro rfl
      simp at hn
    refine ⟨h.1, Function.update_self _ _ _, ?_⟩
    rw [Chain, Function.update_of_ne hij, hj]
  | cons k is ih =>
    obtain ⟨hp, hr⟩ := h
    obtain ⟨hk, hn⟩ := List.nodup_cons.mp hn
    have hki : k ≠ i := fun he => hk (by simp [he])
    refine ⟨hp, ?_⟩
    rw [Function.update_of_ne hki]
    exact ih hr hn

theorem seek_none {next : ι → Option ι} {sought : ι → Bool} {p : Option ι} {is : List ι}
    (h : Chain next p is) (hs : ∀ i ∈ is, sought i = false) (fuel : ℕ) (hf : is.length < fuel)
    (last : Option ι) : seek next sought fuel last p = some (is.getLast?.or last, none) := by
  induction is generalizing p fuel last with
  | nil =>
    obtain ⟨fuel, rfl⟩ := Nat.exists_eq_add_of_le' hf
    rw [show p = none from h]
    rfl
  | cons i is ih =>
    obtain ⟨fuel, rfl⟩ := Nat.exists_eq_add_of_le' (Nat.succ_le_of_lt (Nat.zero_lt_of_lt hf))
    obtain ⟨rfl, hr⟩ := h
    rw [List.length_cons] at hf
    rw [seek, hs i List.mem_cons_self, if_neg Bool.false_ne_true,
      ih hr (fun j hj => hs j (List.mem_cons_of_mem i hj)) fuel (by omega), List.getLast?_cons]
    cases is.getLast? <;> rfl

theorem seek_some {next : ι → Option ι} {sought : ι → Bool} {p : Option ι} {is js : List ι} {i : ι}
    (h : Chain next p (is ++ i::js)) (hs : ∀ j ∈ is, sought j = false) (hi : sought i = true)
    (fuel : ℕ) (hf : is.length < fuel) (last : Option ι) :
    seek next sought fuel last p = some (is.getLast?.or last, some i) := by
  induction is generalizing p fuel last with
  | nil =>
    obtain ⟨fuel, rfl⟩ := Nat.exists_eq_add_of_le' (Nat.succ_le_of_lt (Nat.zero_lt_of_lt hf))
    rw [h.1, seek, if_pos hi]
    rfl
  | cons k is ih =>
    obtain ⟨fuel, rfl⟩ := Nat.exists_eq_add_of_le' (Nat.succ_le_of_lt (Nat.zero_lt_of_lt hf))
    obtain ⟨rfl, hr⟩ := h
    rw [List.length_cons] at hf
    rw [seek, hs k List.mem_cons_self, if_neg Bool.false_ne_true,
      ih hr (fun j hj => hs j (List.mem_cons_of_mem k hj)) fuel (by omega), List.getLast?_cons]
    cases is.getLast? <;> rfl

theorem follow_chain {next : ι → Option ι} {p : Option ι} {is : List ι} (h : Chain next p is)
    (fuel : ℕ) (hf : is.length < fuel) : follow next fuel p = some is := by
  induction is generalizing p fuel with
  | nil =>
    obtain ⟨fuel, rfl⟩ := Nat.exists_eq_add_of_le' hf
    rw [show p = none from h]
    rfl
  | cons i is ih =>
    obtain ⟨fuel, rfl⟩ := Nat.exists_eq_add_of_le' (Nat.succ_le_of_lt (Nat.zero_lt_of_lt hf))
    obtain ⟨rfl, hr⟩ := h
    rw [List.length_cons] at hf
    rw [follow, ih hr fuel (by omega)]
    rfl

end FasterConfig.LinkedChain
