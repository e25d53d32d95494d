import FasterConfig.PathStack
import FasterConfig.HttpdSanitise
import Mathlib.Data.List.Count

/-!
# Cleaning a path by its segments

A segment is taken out by one of the passes exactly when it has the dots that
the pass looks for. The first two passes drop segments; the third one walks
over them with `last` as its only mark. It therefore agrees with the stack
normal form of the segments until a second move up finds something to take.
-/

set_option autoImplicit false

namespace FasterConfig.HttpdNormalise
open FasterConfig.Strings FasterConfig.HttpdRequest FasterConfig.HttpdSanitise
open FasterConfig.PathStack

def joined (segs : List Text) : Text := segs.flatMap fun s => slash::s

def path (segs : List Text) (last : Text) : Text := joined segs ++ slash::last

def move (s : Text) : Move Text :=
  if s = [dot] then .stay else if s = [dot, dot] then .up else .into s

def moves (segs : List Text) : List (Move Text) := segs.map move

theorem joined_cons (s : Text) (segs : List Text) : joined (s::segs) = slash::s ++ joined segs := rfl

theorem joined_append (xs ys : List Text) : joined (xs ++ ys) = joined xs ++ joined ys :=
  List.flatMap_append

theorem joined_concat (segs : List Text) (s : Text) :
    joined (segs ++ [s]) = joined segs ++ slash::s := by
  rw [joined_append]
  simp [joined]

theorem path_cons (s : Text) (segs : List Text) (last : Text) :
    path (s::segs) last = slash::(s ++ path segs last) := by
  rw [path, joined_cons, List.append_assoc]
  rfl

theorem path_head (segs : List Text) (last : Text) : ∃ rest, path segs last = slash::rest := by
  cases segs with
  | nil => exact ⟨last, rfl⟩
  | cons s segs => exact ⟨_, path_cons s segs last⟩

/-! ## One pass over one segment -/

theorem dots_prefix_iff (n : ℕ) (s rest : Text) (hs : slash ∉ s) :
    dots n <+: s ++ slash::rest ↔ s = List.replicate n dot := by
  constructor
  · intro h
    induction n generalizing s with
    | zero =>
      cases s with
      | nil => rfl
      | cons c s =>
        rw [dots, List.replicate_zero, List.nil_append, List.cons_append] at h
        exact absurd (List.cons_prefix_cons.mp h).1 fun he => hs (by simp [he])
    | succ n ih =>
      rw [dots, List.replicate_succ, List.cons_append] at h
      cases s with
      | nil => exact absurd (List.cons_prefix_cons.mp h).1 (by decide)
      | cons c s =>
        rw [List.cons_append, List.cons_prefix_cons] at h
        rw [← h.1, ih s (fun hm => hs (by simp [hm])) h.2, List.replicate_succ]
  · rintro rfl
    exact ⟨rest, by rw [dots, List.append_assoc]; rfl⟩

theorem not_dots_prefix (n : ℕ) (s : Text) (hs : slash ∉ s) : ¬ dots n <+: s := by
  intro h
  exact hs (h.subset (List.mem_append_right _ (List.mem_singleton.mpr rfl)))

theorem sweep_copies (n : ℕ) (back : Bool) (dest : Text) (mark : ℕ) (s rest : Text)
    (hs : slash ∉ s) : sweep n back dest mark (s ++ rest) = sweep n back (dest ++ s) mark rest := by
  induction s generalizing dest with
  | nil => rw [List.nil_append, List.append_nil]
  | cons c s ih =>
    have hc : c ≠ slash := fun he => hs (by simp [he])
    rw [List.cons_append, sweep, if_neg fun h => hc h.1, if_neg hc, ih _ fun h => hs (by simp [h]),
      List.append_assoc]
    rfl

theorem sweep_skips (n : ℕ) (back : Bool) (dest : Text) (mark : ℕ) (rest : Text) :
    sweep n back dest mark (slash::(List.replicate n dot ++ slash::rest)) =
      sweep n back (if back then dest.take mark else dest) mark (slash::rest) := by
  have hp : dots n <+: List.replicate n dot ++ slash::rest := ⟨rest, by rw [dots, List.append_assoc]; rfl⟩
  rw [sweep, if_pos ⟨rfl, hp⟩, List.drop_left' List.length_replicate]

theorem sweep_keeps (n : ℕ) (back : Bool) (dest : Text) (mark : ℕ) (s rest : Text)
    (hs : slash ∉ s) (hn : s ≠ List.replicate n dot) :
    sweep n back dest mark (slash::(s ++ slash::rest)) =
      sweep n back (dest ++ slash::s) dest.length (slash::rest) := by
  rw [sweep, if_neg fun h => hn ((dots_prefix_iff n s rest hs).mp h.2), if_pos rfl,
    sweep_copies n back _ _ s _ hs, List.append_assoc]
  rfl

theorem sweep_last (n : ℕ) (back : Bool) (dest : Text) (mark : ℕ) (last : Text)
    (hl : slash ∉ last) : sweep n back dest mark (slash::last) = dest ++ slash::last := by
  have hc := sweep_copies n back (dest ++ [slash]) dest.length last [] hl
  rw [List.append_nil, sweep] at hc
  rw [sweep, if_neg fun h => not_dots_prefix n last hl h.2, if_pos rfl, hc, List.append_assoc]
  rfl

/-! ## The passes over all segments -/

theorem sweep_drops (n : ℕ) (dest : Text) (mark : ℕ) (segs : List Text) (last : Text)
    (hs : ∀ s ∈ segs, slash ∉ s) (hl : slash ∉ last) :
    sweep n false dest mark (path segs last) =
      dest ++ path (segs.filter (· ≠ List.replicate n dot)) last := by
  induction segs generalizing dest mark with
  | nil => exact sweep_last n false dest mark last hl
  | cons s segs ih =>
    obtain ⟨rest, hr⟩ := path_head segs last
    have hrest := fun dest mark => ih dest mark fun t ht => hs t (by simp [ht])
    rw [path_cons, hr]
    by_cases hn : s = List.replicate n dot
    · rw [hn, sweep_skips, ← hr, List.filter_cons_of_neg (by simp)]
      exact hrest dest mark
    · rw [sweep_keeps n false dest mark s rest (hs s (by simp)) hn, ← hr, hrest,
        List.filter_cons_of_pos (by simpa using hn), path_cons, List.append_assoc]
      rfl

theorem sweep_walks (s : Walker Text) (segs : List Text) (last : Text)
    (hs : ∀ s ∈ segs, slash ∉ s) (hd : [dot] ∉ segs) (hl : slash ∉ last) :
    sweep 2 true (joined s.kept) (joined s.under).length (path segs last) =
      path ((moves segs).foldl markStep s).kept last := by
  induction segs generalizing s with
  | nil => exact sweep_last 2 true _ _ last hl
  | cons seg segs ih =>
    obtain ⟨rest, hr⟩ := path_head segs last
    have hrest := fun s => ih s (fun t ht => hs t (by simp [ht])) fun h => hd (by simp [h])
    have hdot : seg ≠ [dot] := fun he => hd (by simp [he])
    rw [path_cons, hr, moves, List.map_cons, List.foldl_cons]
    by_cases hn : seg = [dot, dot]
    · have hu := sweep_skips 2 true (joined s.kept) (joined s.under).length rest
      have ht : (joined s.kept).take (joined s.under).length = joined s.under := by
        rw [Walker.kept, joined_append, List.take_left]
      rw [if_pos rfl, ht, ← hr] at hu
      have hm : move seg = .up := by rw [hn]; decide
      have hk : (⟨s.under, none⟩ : Walker Text).kept = s.under := List.append_nil _
      have hw := hrest ⟨s.under, none⟩
      rw [hk] at hw
      rw [hm, hn, ← hr]
      exact hu.trans hw
    · have hm : move seg = .into seg := by rw [move, if_neg hdot, if_neg hn]
      rw [sweep_keeps 2 true _ _ seg rest (hs seg (by simp)) hn, ← hr, ← joined_concat, hm]
      exact hrest ⟨s.kept, some seg⟩

theorem oneMark_filter (segs : List Text) :
    oneMark (moves (segs.filter (· ≠ [dot]))) = oneMark (moves segs) := by
  have hf : moves (segs.filter (· ≠ [dot])) = (moves segs).filter Move.moves := by
    rw [moves, moves, List.filter_map]
    congr 2
    funext s
    simp only [Function.comp_apply, move]
    split_ifs with h1 h2 <;> simp [h1, Move.moves]
  rw [hf, oneMark, oneMark, markAll_moving]

/-- The cleaned path is the one a walker with one mark keeps. -/
theorem sanitiseUrl_path (segs : List Text) (last : Text) (hs : ∀ s ∈ segs, s ≠ [] ∧ slash ∉ s)
    (hl : slash ∉ last) : httpdSanitiseUrl (path segs last) = path (oneMark (moves segs)) last := by
  have hseg : ∀ s ∈ segs, slash ∉ s := fun s h => (hs s h).2
  have hdirect : ∀ s ∈ segs.filter (· ≠ [dot]), slash ∉ s := fun s h =>
    hseg s (List.mem_of_mem_filter h)
  have hempty : segs.filter (· ≠ List.replicate 0 dot) = segs :=
    List.filter_eq_self.mpr fun s h => decide_eq_true (hs s h).1
  have hdots : [dot] ∉ segs.filter (· ≠ [dot]) := fun h => by simp at h
  have hone : segs.filter (· ≠ List.replicate 1 dot) = segs.filter (· ≠ [dot]) := rfl
  rw [sanitiseUrl_sweeps, sweep_drops 0 [] 0 segs last hseg hl, List.nil_append, hempty,
    sweep_drops 1 [] 0 segs last hseg hl, List.nil_append, hone, ← oneMark_filter]
  exact sweep_walks ⟨[], none⟩ _ last hdirect hdots hl

/-! ## Against the stack -/

theorem count_joined (segs : List Text) (hs : ∀ s ∈ segs, slash ∉ s) :
    (joined segs).count slash = segs.length := by
  induction segs with
  | nil => rfl
  | cons s segs ih =>
    rw [joined_cons, List.count_append, List.count_cons_self,
      List.count_eq_zero_of_not_mem (hs s (by simp)), ih fun t ht => hs t (by simp [ht]),
      List.length_cons, Nat.zero_add, Nat.add_comm]

theorem length_of_path_eq (xs ys : List Text) (last : Text) (hx : ∀ s ∈ xs, slash ∉ s)
    (hy : ∀ s ∈ ys, slash ∉ s) (h : path xs last = path ys last) : xs.length = ys.length := by
  have hc := congrArg (List.count slash) (List.append_cancel_right h)
  rwa [count_joined xs hx, count_joined ys hy] at hc

theorem mem_of_into (segs : List Text) (s : Text) (h : .into s ∈ moves segs) : s ∈ segs := by
  obtain ⟨t, ht, hm⟩ := List.mem_map.mp h
  unfold move at hm
  split_ifs at hm
  exact Move.into.inj hm ▸ ht

/-- The normal form is reached exactly when no move up right behind another one has a
segment left to remove. -/
theorem sanitise_normalises_iff (segs : List Text) (last : Text)
    (hs : ∀ s ∈ segs, s ≠ [] ∧ slash ∉ s) (hl : slash ∉ last) :
    httpdSanitiseUrl (path segs last) = path (normalise (moves segs)) last ↔
      ClimbsOnce (moves segs) := by
  rw [sanitiseUrl_path segs last hs hl]
  constructor
  · intro h
    by_contra hn
    have hlen := length_of_path_eq _ _ last
      (fun s hm => (hs s (mem_of_into segs s (mem_oneMark _ s hm))).2)
      (fun s hm => (hs s (mem_of_into segs s (mem_normalise _ s hm))).2) h
    have hlong := oneMark_longer (moves segs) hn
    omega
  · intro h
    rw [oneMark_eq (moves segs) h]

theorem sanitise_normalises_parent :
    httpdSanitiseUrl (path [[0x61], [dot, dot], [0x62], [dot]] [0x63]) =
      path (normalise (moves [[0x61], [dot, dot], [0x62], [dot]])) [0x63] := by
  apply (sanitise_normalises_iff [[0x61], [dot, dot], [0x62], [dot]] [0x63] (by decide)
    (by decide)).mpr
  intro pre post h
  have hf : (moves [[0x61], [dot, dot], [0x62], [dot]]).filter Move.moves =
      [.into [0x61], .up, .into [0x62]] := by decide
  rw [hf] at h
  rcases pre with _ | ⟨p, _ | ⟨q, _ | ⟨r, pre⟩⟩⟩ <;> simp at h

theorem sanitise_two_up :
    ¬ ∀ (segs : List Text) (last : Text), (∀ s ∈ segs, s ≠ [] ∧ slash ∉ s) → slash ∉ last →
      httpdSanitiseUrl (path segs last) = path (normalise (moves segs)) last := by
  intro h
  have hp := h [[0x61], [0x62], [dot, dot], [dot, dot]] [0x63] (by decide) (by decide)
  exact absurd hp (by decide +kernel)

end FasterConfig.HttpdNormalise
