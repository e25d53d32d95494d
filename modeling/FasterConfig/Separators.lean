import Mathlib.Algebra.Ring.Nat
import Mathlib.Data.List.Destutter
import Mathlib.Data.List.DropRight

/-!
# Lists with separators

The non-empty pieces between separators, and the list in which separators in
front, at the end and next to each other are removed: it is the pieces with one
separator between them. Words are the pieces between blanks of any kind.
-/

set_option autoImplicit false

namespace FasterConfig.Separators

section
variable {α : Type*} (sep : α)

theorem rdropWhile_cons (p : α → Bool) (c : α) (s : List α) :
    (c::s).rdropWhile p = if s.rdropWhile p = [] ∧ p c = true then [] else c::s.rdropWhile p := by
  simp only [List.rdropWhile, List.reverse_cons, List.dropWhile_append, List.isEmpty_iff,
    List.reverse_eq_nil_iff]
  by_cases h : s.reverse.dropWhile p = []
  · rw [if_pos h]
    by_cases hc : p c = true <;> simp [h, hc]
  · rw [if_neg h, if_neg fun hn => h hn.1, List.reverse_append]
    rfl

theorem intercalate_ne_nil (l : List α) (ls : List (List α)) (h : l ≠ []) :
    [sep].intercalate (l::ls) ≠ [] := by
  cases l with
  | nil => exact absurd rfl h
  | cons c l =>
    rw [List.intercalate_cons_cons_left]
    exact List.cons_ne_nil _ _

theorem mem_intercalate (ls : List (List α)) (l : List α) (h : l ∈ ls) (c : α) (hc : c ∈ l) :
    c ∈ [sep].intercalate ls := by
  induction ls with
  | nil => cases h
  | cons k ls ih =>
    cases ls with
    | nil =>
      rw [List.intercalate_singleton, ← List.mem_singleton.mp h]
      exact hc
    | cons m ms =>
      rw [List.intercalate_cons_cons, List.append_assoc]
      rcases List.mem_cons.mp h with rfl | h
      · exact List.mem_append_left _ hc
      · exact List.mem_append_right _ (List.mem_append_right _ (ih h))

theorem intercalate_modifyHead (c : α) (ls : List (List α)) (h : ls ≠ []) :
    [sep].intercalate (ls.modifyHead (List.cons c)) = c::[sep].intercalate ls := by
  cases ls with
  | nil => exact absurd rfl h
  | cons l ls => rw [List.modifyHead_cons, List.intercalate_cons_cons_left]

variable [DecidableEq α]

def tokens (s : List α) : List (List α) := (s.splitOn sep).filter (· ≠ [])

/-- The first piece is kept when it is empty. -/
def opened (s : List α) : List (List α) :=
  match s.splitOn sep with
  | [] => []
  | l::ls => l::ls.filter (· ≠ [])

def Apart (a b : α) : Prop := a ≠ sep ∨ b ≠ sep

instance : DecidableRel (Apart sep) := fun _ _ => inferInstanceAs (Decidable (_ ∨ _))

/-- A separator next to another is removed. -/
def single (s : List α) : List α := s.destutter (Apart sep)

def tidy (s : List α) : List α := single sep ((s.rdropWhile (· = sep)).dropWhile (· = sep))

/-! ## Pieces -/

theorem tokens_sep (s : List α) : tokens sep (sep::s) = tokens sep s := by
  rw [tokens, List.splitOn_cons_eq_if_modifyHead, if_pos (BEq.rfl), List.filter_cons,
    if_neg (by simp), tokens]

theorem opened_sep (s : List α) : opened sep (sep::s) = []::tokens sep s := by
  rw [opened, List.splitOn_cons_eq_if_modifyHead, if_pos (BEq.rfl), tokens]

theorem splitOn_other (c : α) (s : List α) (h : c ≠ sep) :
    (c::s).splitOn sep = (s.splitOn sep).modifyHead (List.cons c) := by
  rw [List.splitOn_cons_eq_if_modifyHead, if_neg (by simpa using h)]

theorem tokens_other (c : α) (s : List α) (h : c ≠ sep) :
    tokens sep (c::s) = (opened sep s).modifyHead (List.cons c) := by
  rw [tokens, splitOn_other sep c s h, opened]
  cases s.splitOn sep with
  | nil => rfl
  | cons l ls =>
    rw [List.modifyHead_cons, List.modifyHead_cons, List.filter_cons, if_pos (by simp)]

theorem opened_other (c : α) (s : List α) (h : c ≠ sep) : opened sep (c::s) = tokens sep (c::s) := by
  rw [opened, tokens, splitOn_other sep c s h]
  cases s.splitOn sep with
  | nil => rfl
  | cons l ls => rw [List.modifyHead_cons, List.filter_cons, if_pos (by simp)]

theorem opened_ne_nil (s : List α) : opened sep s ≠ [] := by
  rw [opened]
  cases h : s.splitOn sep with
  | nil => exact absurd h (List.splitOn_ne_nil sep s)
  | cons l ls => simp

theorem length_splitOn (s : List α) :
    ((s.splitOn sep).map List.length).sum+(s.splitOn sep).length = s.length+1 := by
  induction s with
  | nil => rfl
  | cons c s ih =>
    by_cases hc : c = sep
    · rw [List.splitOn_cons_eq_if_modifyHead, if_pos (by simpa using hc), List.map_cons,
        List.sum_cons, List.length_cons, List.length_cons, List.length_nil]
      omega
    · rw [splitOn_other sep c s hc]
      cases h : s.splitOn sep with
      | nil => exact absurd h (List.splitOn_ne_nil sep s)
      | cons l ls =>
        rw [h] at ih
        simp only [List.modifyHead_cons, List.map_cons, List.sum_cons, List.length_cons] at *
        omega

theorem length_tokens (s : List α) :
    ((tokens sep s).map List.length).sum+(tokens sep s).length ≤ s.length+1 := by
  rw [← length_splitOn sep s, tokens]
  induction s.splitOn sep with
  | nil => exact Nat.le_refl _
  | cons l ls ih =>
    rw [List.filter_cons]
    by_cases hl : l ≠ []
    · rw [if_pos (decide_eq_true hl)]
      simp only [List.map_cons, List.sum_cons, List.length_cons]
      omega
    · rw [if_neg (by simpa using hl)]
      simp only [List.map_cons, List.sum_cons, List.length_cons]
      omega

theorem mem_splitOn (s l : List α) (h : l ∈ s.splitOn sep) : ∀ c ∈ l, c ∈ s := by
  intro c hc
  have hj := mem_intercalate sep (s.splitOn sep) l h c hc
  rwa [List.intercalate_splitOn] at hj

theorem mem_tokens (s l : List α) (h : l ∈ tokens sep s) : l ≠ [] ∧ ∀ c ∈ l, c ∈ s := by
  obtain ⟨hm, hn⟩ := List.mem_filter.mp h
  exact ⟨of_decide_eq_true hn, mem_splitOn sep s l hm⟩

theorem sep_not_mem (s l : List α) (h : l ∈ s.splitOn sep) : sep ∉ l := by
  induction s generalizing l with
  | nil => simp_all
  | cons c s ih =>
    by_cases hc : c = sep
    · rw [List.splitOn_cons_eq_if_modifyHead, if_pos (by simpa using hc)] at h
      rcases List.mem_cons.mp h with rfl | h
      · exact List.not_mem_nil
      · exact ih l h
    · rw [splitOn_other sep c s hc] at h
      cases hs : s.splitOn sep with
      | nil => exact absurd hs (List.splitOn_ne_nil sep s)
      | cons k ls =>
        rw [hs] at ih h
        rcases List.mem_cons.mp h with rfl | h
        · have hk := ih k (by simp)
          simp [Ne.symm hc, hk]
        · exact ih l (List.mem_cons_of_mem k h)

theorem tokens_single (l : List α) (h : l ≠ [] ∧ sep ∉ l) : tokens sep l = [l] := by
  rw [tokens, List.splitOn_eq_singleton h.2, List.filter_cons, if_pos (decide_eq_true h.1),
    List.filter_nil]

theorem tokens_append (l s : List α) (h : l ≠ [] ∧ sep ∉ l) :
    tokens sep (l ++ sep::s) = l::tokens sep s := by
  rw [tokens, List.splitOn_append_cons_self_of_not_mem h.2, List.filter_cons,
    if_pos (decide_eq_true h.1), tokens]

theorem tokens_intercalate (ls : List (List α)) (h : ∀ l ∈ ls, l ≠ [] ∧ sep ∉ l) :
    tokens sep ([sep].intercalate ls) = ls := by
  induction ls with
  | nil => simp [tokens]
  | cons l ls ih =>
    have hl := h l (by simp)
    have hls := ih fun k hk => h k (List.mem_cons_of_mem l hk)
    cases ls with
    | nil => rw [List.intercalate_singleton, tokens_single sep l hl]
    | cons m ms =>
      rw [List.intercalate_cons_cons, List.append_assoc, List.singleton_append,
        tokens_append sep l _ hl, hls]

/-! ## Tidied lists -/

theorem single_other (c : α) (s : List α) (h : c ≠ sep) : single sep (c::s) = c::single sep s := by
  cases s with
  | nil => rfl
  | cons d s => exact List.destutter'_cons_pos _ (.inl h)

theorem single_sep (s : List α) : single sep (sep::s) = sep::single sep (s.dropWhile (· = sep)) := by
  induction s with
  | nil => rfl
  | cons d s ih =>
    by_cases hd : d = sep
    · rw [List.dropWhile_cons_of_pos (by simpa using hd), ← ih, hd]
      exact List.destutter'_cons_neg _ fun h => h.elim (· rfl) (· rfl)
    · rw [List.dropWhile_cons_of_neg (by simpa using hd)]
      exact List.destutter'_cons_pos _ (.inr hd)

theorem rdropWhile_sep (s : List α) :
    (sep::s).rdropWhile (· = sep) =
      if s.rdropWhile (· = sep) = [] then [] else sep::s.rdropWhile (· = sep) := by
  rw [rdropWhile_cons]
  simp

theorem rdropWhile_other (c : α) (s : List α) (h : c ≠ sep) :
    (c::s).rdropWhile (· = sep) = c::s.rdropWhile (· = sep) := by
  rw [rdropWhile_cons, if_neg fun hn => h (of_decide_eq_true hn.2)]

theorem tidy_sep (s : List α) : tidy sep (sep::s) = tidy sep s := by
  rw [tidy, tidy, rdropWhile_sep]
  by_cases h : s.rdropWhile (· = sep) = []
  · rw [if_pos h, h]
  · rw [if_neg h, List.dropWhile_cons_of_pos (by simp)]

theorem tidy_other (c : α) (s : List α) (h : c ≠ sep) :
    tidy sep (c::s) = c::single sep (s.rdropWhile (· = sep)) := by
  rw [tidy, rdropWhile_other sep c s h, List.dropWhile_cons_of_neg (by simpa using h),
    single_other sep c _ h]

theorem tidy_eq_nil (s : List α) (h : tidy sep s = []) : s.rdropWhile (· = sep) = [] := by
  rw [tidy, single, List.destutter_eq_nil, List.dropWhile_eq_nil_iff] at h
  rw [← List.rdropWhile_idempotent, List.rdropWhile_eq_nil_iff]
  exact h

theorem intercalate_pieces (s : List α) :
    [sep].intercalate (tokens sep s) = tidy sep s ∧
      [sep].intercalate (opened sep s) = single sep (s.rdropWhile (· = sep)) := by
  induction s with
  | nil => simp [tokens, opened, tidy, single]
  | cons c s ih =>
    obtain ⟨ht, ho⟩ := ih
    by_cases hc : c = sep
    · rw [hc, tokens_sep, tidy_sep, opened_sep, rdropWhile_sep]
      refine ⟨ht, ?_⟩
      cases htok : tokens sep s with
      | nil =>
        rw [htok, List.intercalate_nil] at ht
        rw [if_pos (tidy_eq_nil sep s ht.symm), List.intercalate_singleton]
        rfl
      | cons l ls =>
        have hl : l ≠ [] := by
          have hmem : l ∈ tokens sep s := by simp [htok]
          exact of_decide_eq_true (List.mem_filter.mp hmem).2
        have hne : s.rdropWhile (· = sep) ≠ [] := by
          intro he
          rw [htok, tidy, he] at ht
          exact intercalate_ne_nil sep l ls hl ht
        rw [if_neg hne, single_sep, List.intercalate_cons_cons, ← htok, ht]
        rfl
    · rw [opened_other sep c s hc, tidy_other sep c s hc, tokens_other sep c s hc,
        rdropWhile_other sep c s hc, single_other sep c _ hc,
        intercalate_modifyHead sep c _ (opened_ne_nil sep s), ho]
      exact ⟨rfl, rfl⟩

theorem intercalate_tokens (s : List α) : [sep].intercalate (tokens sep s) = tidy sep s :=
  (intercalate_pieces sep s).1

theorem tokens_tidy (s : List α) : tokens sep (tidy sep s) = tokens sep s := by
  rw [← intercalate_tokens]
  apply tokens_intercalate
  intro l hl
  obtain ⟨hm, hn⟩ := List.mem_filter.mp hl
  exact ⟨of_decide_eq_true hn, sep_not_mem sep s l hm⟩

end

/-! ## Words -/

section
variable {α : Type*} (space : α → Bool)

def words (s : List α) : List (List α) := (s.splitOnP space).filter fun l => !l.isEmpty

theorem words_space (c : α) (s : List α) (h : space c = true) : words space (c::s) = words space s := by
  rw [words, List.splitOnP_cons_eq_if_modifyHead, if_pos h, List.filter_cons_of_neg (by simp), words]

theorem words_word (w : List α) (hne : w ≠ []) (hw : ∀ c ∈ w, space c = false) : words space w = [w] := by
  rw [words, List.splitOnP_eq_singleton hw, List.filter_cons_of_pos (by simpa using hne),
    List.filter_nil]

theorem words_append (w : List α) (hne : w ≠ []) (hw : ∀ c ∈ w, space c = false) (c : α) (s : List α)
    (hc : space c = true) : words space (w ++ c::s) = w::words space s := by
  rw [words, List.splitOnP_append_cons_of_forall_mem hw c hc, List.filter_cons_of_pos (by simpa using hne),
    words]

theorem words_break (s : List α) (c : α) (t : List α) (hc : space c = true) :
    words space (s ++ c::t) = words space s ++ words space t := by
  rw [words, List.splitOnP_append_cons s t hc, List.filter_append, words, words]

theorem words_dropWhile (s : List α) : words space (s.dropWhile space) = words space s := by
  induction s with
  | nil => rfl
  | cons c s ih =>
    by_cases hc : space c = true
    · rw [List.dropWhile_cons_of_pos hc, ih, words_space space c s hc]
    · rw [List.dropWhile_cons_of_neg hc]

theorem words_next (s : List α) (h : s.dropWhile space ≠ []) :
    words space s = ((s.dropWhile space).takeWhile fun c => !space c)::
      words space ((s.dropWhile space).dropWhile fun c => !space c) := by
  have hfirst : space ((s.dropWhile space).head h) = false := by
    simpa using List.head_dropWhile_not space h
  rw [← words_dropWhile space s]
  generalize s.dropWhile space = t at *
  have hne : t.takeWhile (fun c => !space c) ≠ [] := by
    cases t with
    | nil => exact absurd rfl h
    | cons c t =>
      rw [List.head_cons] at hfirst
      rw [List.takeWhile_cons_of_pos (by simp [hfirst])]
      exact List.cons_ne_nil _ _
  have hw : ∀ c ∈ t.takeWhile (fun c => !space c), space c = false := fun c hc => by
    simpa using List.mem_takeWhile_imp hc
  conv_lhs => rw [← List.takeWhile_append_dropWhile (p := fun c => !space c) (l := t)]
  cases hr : t.dropWhile (fun c => !space c) with
  | nil =>
    rw [List.append_nil, words_word space _ hne hw]
    rfl
  | cons c rest =>
    have hc : space c = true := by
      have hhead := List.head_dropWhile_not (fun c => !space c) (l := t) (by simp [hr])
      simpa [hr] using hhead
    rw [words_append space _ hne hw c rest hc, words_space space c rest hc]

theorem words_blank (s : List α) (h : s.dropWhile space = []) : words space s = [] := by
  rw [← words_dropWhile, h]
  rfl

end

end FasterConfig.Separators
