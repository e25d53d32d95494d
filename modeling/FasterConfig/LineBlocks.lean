import Mathlib.Data.List.Basic

/-!
# Blocks of lines

A block is a sequence of lines with a separator behind each of them, and one
more separator at its end, where an empty line would be. Lines that are not
empty and hold no separator can be read back from a block with anything
behind it, and in one way only.
-/

set_option autoImplicit false

namespace FasterConfig.LineBlocks

variable {α : Type*} (sep : α)

structure IsLine (l : List α) : Prop where
  nonempty : l ≠ []
  unbroken : sep ∉ l

def ended (ls : List (List α)) : List α := ls.flatMap fun l => l ++ [sep]

def block (ls : List (List α)) : List α := ended sep ls ++ [sep]

@[simp] theorem ended_nil : ended sep ([] : List (List α)) = [] := rfl

theorem ended_cons (l : List α) (ls : List (List α)) :
    ended sep (l::ls) = l ++ sep::ended sep ls := by
  rw [ended, List.flatMap_cons, List.append_assoc, List.singleton_append, ended]

theorem ended_append (ls ks : List (List α)) : ended sep (ls ++ ks) = ended sep ls ++ ended sep ks :=
  List.flatMap_append

theorem block_cons (l : List α) (ls : List (List α)) :
    block sep (l::ls) = l ++ sep::block sep ls := by
  rw [block, ended_cons, List.append_assoc, List.cons_append, block]

theorem line_inj {l k s t : List α} (hl : sep ∉ l) (hk : sep ∉ k) (h : l ++ sep::s = k ++ sep::t) :
    l = k ∧ s = t := by
  induction l generalizing k with
  | nil =>
    cases k with
    | nil => exact ⟨rfl, (List.cons.inj h).2⟩
    | cons c k => exact absurd (List.cons.inj h).1 (List.ne_of_not_mem_cons hk)
  | cons d l ih =>
    cases k with
    | nil => exact absurd (List.cons.inj h).1.symm (List.ne_of_not_mem_cons hl)
    | cons c k =>
      obtain ⟨hd, ht⟩ := List.cons.inj h
      obtain ⟨he, hs⟩ := ih (List.not_mem_of_not_mem_cons hl) (List.not_mem_of_not_mem_cons hk) ht
      exact ⟨by rw [hd, he], hs⟩

theorem line_ne_end {l s t : List α} (hl : IsLine sep l) : l ++ sep::s ≠ sep::t := by
  intro h
  cases l with
  | nil => exact hl.nonempty rfl
  | cons d l => exact hl.unbroken (by rw [(List.cons.inj h).1]; exact List.mem_cons_self)

theorem block_inj {ls ks : List (List α)} {b c : List α} (hl : ∀ l ∈ ls, IsLine sep l)
    (hk : ∀ l ∈ ks, IsLine sep l) (h : block sep ls ++ b = block sep ks ++ c) : ls = ks ∧ b = c := by
  induction ls generalizing ks with
  | nil =>
    cases ks with
    | nil => exact ⟨rfl, List.append_cancel_left h⟩
    | cons k ks =>
      rw [block_cons, List.append_assoc] at h
      exact absurd h.symm (line_ne_end sep (hk k List.mem_cons_self))
  | cons l ls ih =>
    rw [block_cons, List.append_assoc] at h
    cases ks with
    | nil => exact absurd h (line_ne_end sep (hl l List.mem_cons_self))
    | cons k ks =>
      rw [block_cons, List.append_assoc] at h
      obtain ⟨he, ht⟩ := line_inj sep (hl l List.mem_cons_self).unbroken
        (hk k List.mem_cons_self).unbroken h
      obtain ⟨hls, hb⟩ := ih (fun m hm => hl m (List.mem_cons_of_mem l hm))
        (fun m hm => hk m (List.mem_cons_of_mem k hm)) ht
      exact ⟨by rw [he, hls], hb⟩

/-- The lines in front of the first empty one. -/
def readBlock [DecidableEq α] (s : List α) : List (List α) := (s.splitOn sep).takeWhile (· ≠ [])

theorem readBlock_block [DecidableEq α] {ls : List (List α)} (b : List α) (h : ∀ l ∈ ls, IsLine sep l) :
    readBlock sep (block sep ls ++ b) = ls := by
  induction ls with
  | nil =>
    rw [readBlock, block, ended_nil, List.nil_append, List.cons_append,
      ← List.nil_append (sep::([] ++ b)), List.splitOn_append_cons_self_of_not_mem List.not_mem_nil]
    exact List.takeWhile_cons_of_neg (by simp)
  | cons l ls ih =>
    have hl := h l List.mem_cons_self
    rw [readBlock, block_cons, List.append_assoc, List.cons_append,
      List.splitOn_append_cons_self_of_not_mem hl.unbroken, List.takeWhile_cons_of_pos]
    · exact congrArg (List.cons l) (ih fun m hm => h m (List.mem_cons_of_mem l hm))
    · exact decide_eq_true hl.nonempty

end FasterConfig.LineBlocks
