import FasterConfig.Separators
import Mathlib.Data.List.Basic
import Mathlib.Data.List.TakeWhile

/-!
# Strings of octets

A string stands for the octets in front of its NUL. Copying into an array of
`n` octets with a closing NUL keeps the first `n-1`; searching for a
character splits the string at its first or last place.
-/

set_option autoImplicit false

namespace FasterConfig.Strings
open FasterConfig.Separators

abbrev Text := List UInt8

def slash : UInt8 := 0x2f

def ascii (s : String) : Text := s.toList.map fun c => UInt8.ofNat c.toNat

theorem octet_induction {P : UInt8 → Prop} (h : ∀ n < 256, P (UInt8.ofNat n)) (a : UInt8) : P a := by
  have ha := h a.toNat a.toNat_lt
  rwa [UInt8.ofNat_toNat] at ha

theorem takeWhile_stop (p : UInt8 → Bool) {stop : UInt8} (h : p stop = false) (line behind : Text) :
    (line ++ stop::behind).takeWhile p = line.takeWhile p := by
  induction line with
  | nil => exact List.takeWhile_cons_of_neg (by simp [h])
  | cons c line ih => rw [List.cons_append, List.takeWhile_cons, List.takeWhile_cons, ih]

theorem dropWhile_stop (p : UInt8 → Bool) {stop : UInt8} (h : p stop = false) (line behind : Text) :
    (line ++ stop::behind).dropWhile p = line.dropWhile p ++ stop::behind := by
  induction line with
  | nil => exact List.dropWhile_cons_of_neg (by simp [h])
  | cons c line ih =>
    rw [List.cons_append, List.dropWhile_cons, List.dropWhile_cons]
    split_ifs
    · exact ih
    · rfl

def cString (a : Text) : Text := a.takeWhile (· ≠ 0)

theorem cString_self (s : Text) (h : 0 ∉ s) : cString s = s := by
  apply List.takeWhile_eq_self_iff.mpr
  intro c hc
  exact decide_eq_true fun he => h (he ▸ hc)

theorem cString_cut (s t : Text) : cString (s ++ 0::t) = cString s := takeWhile_stop _ (by decide) s t

theorem cString_append (s t : Text) (h : 0 ∉ s) : cString (s ++ 0::t) = s := by
  rw [cString_cut, cString_self s h]

theorem take_set_succ (a : Text) (k : ℕ) (c : UInt8) (h : k < a.length) :
    (a.set k c).take (k+1) = a.take k ++ [c] := by
  have hl : (a.take k ++ [c]).length = k+1 := by
    rw [List.length_append, List.length_take_of_le (Nat.le_of_lt h), List.length_singleton]
  rw [List.set_eq_take_append_cons_drop, if_pos h, List.append_cons, List.take_left' hl]

/-- `strncpy(dest, src, n); dest[n-1] = 0;` -/
def strncpy (src : Text) (n : ℕ) : Text := src.take (n-1)

theorem strncpy_short (src : Text) (n : ℕ) (h : src.length < n) : strncpy src n = src :=
  List.take_of_length_le (by omega)

def strchr (c : UInt8) : Text → Option (Text × Text)
  | [] => none
  | x::xs => if x = c then some ([], xs) else (strchr c xs).map fun r => (x::r.1, r.2)

theorem strchr_append (c : UInt8) (s t : Text) (h : c ∉ s) : strchr c (s ++ c::t) = some (s, t) := by
  induction s with
  | nil => simp [strchr]
  | cons x xs ih =>
    have hx : x ≠ c := fun he => h (by simp [he])
    rw [List.cons_append, strchr, if_neg hx, ih fun hm => h (by simp [hm])]
    rfl

theorem strchr_none (c : UInt8) (s : Text) (h : c ∉ s) : strchr c s = none := by
  induction s with
  | nil => rfl
  | cons x xs ih =>
    have hx : x ≠ c := fun he => h (by simp [he])
    rw [strchr, if_neg hx, ih fun hm => h (by simp [hm])]
    rfl

theorem strchr_eq_append (c : UInt8) (s : Text) (r : Text × Text) (h : strchr c s = some r) :
    s = r.1 ++ c::r.2 := by
  induction s generalizing r with
  | nil => cases h
  | cons x xs ih =>
    rw [strchr] at h
    by_cases hx : x = c
    · rw [if_pos hx] at h
      cases h
      rw [hx, List.nil_append]
    · rw [if_neg hx] at h
      obtain ⟨p, hp, rfl⟩ := Option.map_eq_some_iff.mp h
      rw [List.cons_append, ← ih p hp]

theorem length_strchr (c : UInt8) (s : Text) (r : Text × Text) (h : strchr c s = some r) :
    r.1.length+r.2.length+1 = s.length := by
  rw [strchr_eq_append c s r h, List.length_append, List.length_cons]
  omega

def strrchr (c : UInt8) : Text → Option (Text × Text)
  | [] => none
  | x::xs => match strrchr c xs with
    | some r => some (x::r.1, r.2)
    | none => if x = c then some ([], xs) else none

theorem strrchr_none (c : UInt8) (s : Text) (h : c ∉ s) : strrchr c s = none := by
  induction s with
  | nil => rfl
  | cons x xs ih =>
    rw [strrchr, ih fun hm => h (by simp [hm])]
    exact if_neg fun he => h (by simp [he])

theorem strrchr_append (c : UInt8) (s t : Text) (h : c ∉ t) :
    strrchr c (s ++ c::t) = some (s, t) := by
  induction s with
  | nil =>
    rw [List.nil_append, strrchr, strrchr_none c t h]
    exact if_pos rfl
  | cons x xs ih => rw [List.cons_append, strrchr, ih]

def strtok (sep : UInt8) (s : Text) : List Text := (s.splitOn sep).filter (· ≠ [])

theorem length_strtok (sep : UInt8) (s : Text) :
    ((strtok sep s).map List.length).sum+(strtok sep s).length ≤ s.length+1 := length_tokens sep s

theorem mem_strtok (sep : UInt8) (s l : Text) (h : l ∈ strtok sep s) : l ≠ [] ∧ ∀ c ∈ l, c ∈ s :=
  mem_tokens sep s l h

theorem range_below_iff (a n b : ℕ) : (∀ i ∈ List.range' a n, i < b) ↔ n = 0 ∨ a+n ≤ b := by
  simp only [List.mem_range'_1]
  constructor
  · intro h
    by_contra hn
    have hlast := h (a+n-1) (by omega)
    omega
  · intro h i hi
    omega

end FasterConfig.Strings
