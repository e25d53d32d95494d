import FasterConfig.Octets
import Mathlib.Data.List.Infix
import Mathlib.Data.Nat.Basic
import Mathlib.Tactic.Ring

/-!
# Domain names on the wire and as text

A name is a list of labels. On the wire each label follows its length octet
and a zero octet ends the name. As text the labels are joined by dots, and
octets that are not plain are escaped, so the text may be four times as long.
-/

set_option autoImplicit false

namespace FasterConfig.DomainName
open FasterConfig.Octets

abbrev Label := List UInt8

def wireLabels : List Label → List UInt8
  | [] => []
  | l::ls => UInt8.ofNat l.length::l ++ wireLabels ls

def wire (ls : List Label) : List UInt8 := wireLabels ls ++ [0]

structure ValidLabel (l : Label) : Prop where
  pos : 1 ≤ l.length
  le : l.length ≤ 63

structure ValidName (ls : List Label) : Prop where
  labels : ∀ l ∈ ls, ValidLabel l
  total : (wire ls).length ≤ 255

@[simp] theorem wireLabels_nil : wireLabels [] = [] := rfl

@[simp] theorem wireLabels_cons (l : Label) (ls : List Label) :
    wireLabels (l::ls) = UInt8.ofNat l.length::l ++ wireLabels ls := rfl

theorem wire_cons (l : Label) (ls : List Label) :
    wire (l::ls) = (UInt8.ofNat l.length::l) ++ wire ls := by
  rw [wire, wireLabels_cons, List.append_assoc, wire]

theorem length_wireLabels (ls : List Label) :
    (wireLabels ls).length = (ls.map List.length).sum+ls.length := by
  induction ls with
  | nil => rfl
  | cons l ls ih => simp only [wireLabels_cons, List.length_append, List.length_cons, ih,
      List.map_cons, List.sum_cons]; omega

theorem sum_labels (ls : List Label) :
    (ls.map fun l => l.length+1).sum = (wireLabels ls).length := by
  induction ls with
  | nil => rfl
  | cons l ls ih => rw [List.map_cons, List.sum_cons, ih, wireLabels_cons, List.length_append,
      List.length_cons]

theorem length_wire (ls : List Label) : (wire ls).length = (wireLabels ls).length+1 := by
  simp [wire]

theorem length_lt_wireLabels (ls : List Label) (l : Label) (h : l ∈ ls) :
    l.length < (wireLabels ls).length := by
  induction ls with
  | nil => cases h
  | cons k ls ih =>
    rw [wireLabels_cons, List.length_append, List.length_cons]
    rcases List.mem_cons.mp h with rfl | h
    · omega
    · have := ih h
      omega

theorem wireLabels_injective (ls ms : List Label) (hl : ∀ l ∈ ls, l.length < 256)
    (hm : ∀ l ∈ ms, l.length < 256) (h : wireLabels ls = wireLabels ms) : ls = ms := by
  induction ls generalizing ms with
  | nil =>
    cases ms with
    | nil => rfl
    | cons m ms => simp at h
  | cons l ls ih =>
    cases ms with
    | nil => simp at h
    | cons m ms =>
      simp only [wireLabels_cons, List.cons_append, List.cons.injEq] at h
      have hlen : l.length = m.length :=
        ofNat_inj_of_lt _ _ (hl l (by simp)) (hm m (by simp)) h.1
      obtain ⟨he, hr⟩ := List.append_inj h.2 hlen
      rw [he, ih ms (fun k hk => hl k (by simp [hk])) (fun k hk => hm k (by simp [hk])) hr]

/-! ## Text -/

/-- Octets the text form escapes with a backslash: `"`, `.`, `;`, the backslash, `(`, `)`, `@`, `$`. -/
def special (c : UInt8) : Bool := c ∈ [0x22, 0x2e, 0x3b, 0x5c, 0x28, 0x29, 0x40, 0x24]

def printable (c : UInt8) : Bool := 0x20 < c ∧ c < 0x7f

def digit (n : ℕ) : UInt8 := UInt8.ofNat (0x30+n)

def escape (c : UInt8) : List UInt8 :=
  if special c then [0x5c, c]
  else if printable c then [c]
  else [0x5c, digit (c.toNat/100), digit (c.toNat%100/10), digit (c.toNat%10)]

def escapeLabel (l : Label) : List UInt8 := l.flatMap escape

def text : List Label → List UInt8
  | [] => []
  | [l] => escapeLabel l
  | l::ls => escapeLabel l ++ 0x2e::text ls

def Plain (c : UInt8) : Prop := special c = false ∧ printable c = true

instance (c : UInt8) : Decidable (Plain c) := inferInstanceAs (Decidable (_ ∧ _))

def width (c : UInt8) : ℕ := if special c then 2 else if printable c then 1 else 4

@[simp] theorem length_escape (c : UInt8) : (escape c).length = width c := by
  unfold escape width
  split_ifs <;> rfl

theorem width_pos (c : UInt8) : 1 ≤ width c := by
  unfold width
  split_ifs <;> decide

theorem width_le (c : UInt8) : width c ≤ 4 := by
  unfold width
  split_ifs <;> decide

theorem width_eq_one_iff (c : UInt8) : width c = 1 ↔ Plain c := by
  unfold width Plain
  split_ifs <;> simp [*]

theorem escape_plain (c : UInt8) (h : Plain c) : escape c = [c] := by
  simp [escape, h.1, h.2]

def labelWidth (l : Label) : ℕ := (l.map width).sum

@[simp] theorem length_escapeLabel (l : Label) : (escapeLabel l).length = labelWidth l := by
  simp [escapeLabel, labelWidth, List.length_flatMap]

theorem labelWidth_ge (l : Label) : l.length ≤ labelWidth l := by
  induction l with
  | nil => exact Nat.le_refl _
  | cons c l ih =>
    have hc := width_pos c
    simp only [labelWidth, List.map_cons, List.sum_cons, List.length_cons] at *
    omega

theorem labelWidth_le (l : Label) : labelWidth l ≤ 4*l.length := by
  induction l with
  | nil => exact Nat.le_refl _
  | cons c l ih =>
    have hc := width_le c
    simp only [labelWidth, List.map_cons, List.sum_cons, List.length_cons] at *
    omega

theorem plain_of_labelWidth (l : Label) (h : labelWidth l = l.length) : ∀ c ∈ l, Plain c := by
  induction l with
  | nil => simp
  | cons c l ih =>
    have hc := width_pos c
    have hl := labelWidth_ge l
    simp only [labelWidth, List.map_cons, List.sum_cons, List.length_cons] at *
    intro d hd
    rcases List.mem_cons.mp hd with rfl | hd
    · exact (width_eq_one_iff d).mp (by omega)
    · exact ih (by omega) d hd

theorem escapeLabel_plain (l : Label) (h : ∀ c ∈ l, Plain c) : escapeLabel l = l := by
  induction l with
  | nil => rfl
  | cons c l ih =>
    have ht := ih fun d hd => h d (by simp [hd])
    simp only [escapeLabel] at ht
    simp [escapeLabel, List.flatMap_cons, escape_plain c (h c (by simp)), ht]

theorem length_text (ls : List Label) :
    (text ls).length = (ls.map labelWidth).sum+(ls.length-1) := by
  induction ls with
  | nil => rfl
  | cons l ls ih =>
    cases ls with
    | nil => simp [text]
    | cons m ms =>
      simp only [text, List.length_append, List.length_cons, length_escapeLabel, ih, List.map_cons,
        List.sum_cons]
      omega

theorem length_text_le (ls : List Label) (h : (wire ls).length ≤ 255) : (text ls).length ≤ 1012 := by
  have hs : (ls.map labelWidth).sum ≤ 4*(ls.map List.length).sum := by
    clear h
    induction ls with
    | nil => exact Nat.le_refl _
    | cons l ls ih =>
      have hl := labelWidth_le l
      simp only [List.map_cons, List.sum_cons]
      omega
  rw [length_wire, length_wireLabels] at h
  rw [length_text]
  cases ls with
  | nil => simp
  | cons l ls => simp only [List.length_cons] at *; omega

theorem special_dot : special 0x2e = true := by decide

theorem plain_ne_dot (c : UInt8) (h : Plain c) : c ≠ 0x2e := by
  rintro rfl
  exact absurd h.1 (by decide)

end FasterConfig.DomainName
