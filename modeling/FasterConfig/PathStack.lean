import Mathlib.Data.List.Basic
import Mathlib.Data.List.Induction

/-!
# Walking up and down a path

A path is a list of moves. The normal form keeps a stack of the names that
were entered and takes one off for each move up. A walker with one mark knows
only where its last name begins: it can take that one back, but not the one
before it.
-/

set_option autoImplicit false

namespace FasterConfig.PathStack

inductive Move (α : Type*) where
  | stay
  | up
  | into (name : α)
  deriving DecidableEq, Repr

variable {α : Type*}

def Move.moves : Move α → Bool
  | .stay => false
  | _ => true

/-! ## With a stack -/

def stackStep (kept : List α) : Move α → List α
  | .stay => kept
  | .up => kept.dropLast
  | .into name => kept ++ [name]

def normalise (moves : List (Move α)) : List α := moves.foldl stackStep []

theorem normalise_concat (moves : List (Move α)) (m : Move α) :
    normalise (moves ++ [m]) = stackStep (normalise moves) m := by
  rw [normalise, List.foldl_concat, normalise]

theorem mem_into {name n : α} (h : name ∈ [n]) : Move.into name ∈ [Move.into n] := by
  rw [List.mem_singleton.mp h]
  exact List.mem_singleton_self _

theorem mem_normalise (moves : List (Move α)) (name : α) (h : name ∈ normalise moves) :
    .into name ∈ moves := by
  induction moves using List.reverseRecOn with
  | nil => cases h
  | append_singleton moves m ih =>
    rw [normalise_concat] at h
    apply List.mem_append.mpr
    cases m with
    | stay => exact .inl (ih h)
    | up => exact .inl (ih (List.dropLast_subset _ h))
    | into n =>
      exact (List.mem_append.mp h).imp ih mem_into

/-! ## With one mark -/

/-- `under` stands before the mark; `top` is the name behind it, if it was not taken back. -/
structure Walker (α : Type*) where
  under : List α
  top : Option α
  deriving DecidableEq, Repr

def Walker.kept (s : Walker α) : List α := s.under ++ s.top.toList

def markStep (s : Walker α) : Move α → Walker α
  | .stay => s
  | .up => { s with top := none }
  | .into name => ⟨s.kept, some name⟩

def markAll (moves : List (Move α)) : Walker α := moves.foldl markStep ⟨[], none⟩

def oneMark (moves : List (Move α)) : List α := (markAll moves).kept

theorem markAll_concat (moves : List (Move α)) (m : Move α) :
    markAll (moves ++ [m]) = markStep (markAll moves) m := by
  rw [markAll, List.foldl_concat, markAll]

theorem mem_oneMark (moves : List (Move α)) (name : α) (h : name ∈ oneMark moves) :
    .into name ∈ moves := by
  induction moves using List.reverseRecOn with
  | nil => cases h
  | append_singleton moves m ih =>
    rw [oneMark, markAll_concat] at h
    apply List.mem_append.mpr
    cases m with
    | stay => exact .inl (ih h)
    | up =>
      rw [markStep, Walker.kept, Option.toList_none, List.append_nil] at h
      exact .inl (ih (List.mem_append_left _ h))
    | into n =>
      exact (List.mem_append.mp h).imp ih mem_into

theorem foldl_moving {σ : Type*} (step : σ → Move α → σ) (h : ∀ s, step s .stay = s)
    (moves : List (Move α)) (s : σ) :
    (moves.filter Move.moves).foldl step s = moves.foldl step s := by
  induction moves generalizing s with
  | nil => rfl
  | cons m moves ih =>
    cases m with
    | stay =>
      rw [List.filter_cons_of_neg Bool.false_ne_true, ih, List.foldl_cons, h]
    | up =>
      rw [List.filter_cons_of_pos rfl, List.foldl_cons, ih, List.foldl_cons]
    | into name =>
      rw [List.filter_cons_of_pos rfl, List.foldl_cons, ih, List.foldl_cons]

theorem normalise_moving (moves : List (Move α)) :
    normalise (moves.filter Move.moves) = normalise moves :=
  foldl_moving stackStep (fun _ => rfl) moves []

theorem markAll_moving (moves : List (Move α)) :
    markAll (moves.filter Move.moves) = markAll moves :=
  foldl_moving markStep (fun _ => rfl) moves ⟨[], none⟩

/-! ## Where the two differ -/

/-- A move up right behind a move up finds nothing left to take. -/
def ClimbsOnce (moves : List (Move α)) : Prop :=
  ∀ pre post, moves.filter Move.moves = pre ++ .up::.up::post → normalise (pre ++ [.up]) = []

def Single (moves : List (Move α)) : Prop :=
  ∀ pre post, moves = pre ++ .up::.up::post → normalise (pre ++ [.up]) = []

theorem single_nil : Single ([] : List (Move α)) :=
  fun pre post h => absurd h (by simp)

theorem single_concat (moves : List (Move α)) (m : Move α) :
    Single (moves ++ [m]) ↔
      Single moves ∧ (m = .up → moves.getLast? = some .up → normalise moves = []) := by
  constructor
  · intro h
    constructor
    · intro pre post he
      exact h pre (post ++ [m]) (by rw [he, List.append_assoc]; rfl)
    · rintro rfl hl
      obtain ⟨pre, rfl⟩ := List.getLast?_eq_some_iff.mp hl
      exact h pre [] (by rw [List.append_assoc]; rfl)
  · rintro ⟨h, hm⟩ pre post he
    rcases List.eq_nil_or_concat post with rfl | ⟨post, p, rfl⟩
    · have hc : moves ++ [m] = (pre ++ [.up]) ++ [.up] := by rw [he, List.append_assoc]; rfl
      obtain ⟨hmoves, hup⟩ := List.append_inj' hc rfl
      rw [← hmoves]
      exact hm (List.cons.inj hup).1 (by rw [hmoves, List.getLast?_concat])
    · have hc : moves ++ [m] = (pre ++ .up::.up::post) ++ [p] := by
        rw [he, List.append_assoc]
        simp
      exact h pre post (List.append_inj' hc rfl).1

/-- The walker has kept what the stack keeps, and has no name to take back only right
behind a move up, or at the start. -/
structure Agrees (moves : List (Move α)) : Prop where
  kept : oneMark moves = normalise moves
  top : (markAll moves).top = none → moves.getLast? = some .up ∨ (markAll moves).under = []

/-- The walker has kept too much, and will never take back all of it. -/
structure Lags (moves : List (Move α)) : Prop where
  longer : (normalise moves).length < (oneMark moves).length
  under : (markAll moves).under ≠ []

theorem agrees_concat (moves : List (Move α)) (m : Move α) (hm : m.moves = true)
    (h : Agrees moves) (hu : m = .up → moves.getLast? = some .up → normalise moves = []) :
    Agrees (moves ++ [m]) := by
  have hk := h.kept
  have ht := h.top
  unfold oneMark Walker.kept at hk
  cases m with
  | stay => exact absurd hm Bool.false_ne_true
  | into name =>
    constructor
    · rw [oneMark, markAll_concat, normalise_concat, ← h.kept]
      rfl
    · rw [markAll_concat]
      exact fun hn => absurd hn (by simp [markStep])
  | up =>
    constructor
    · rw [oneMark, markAll_concat, normalise_concat]
      simp only [Walker.kept, markStep, stackStep, Option.toList_none, List.append_nil]
      cases hs : (markAll moves).top with
      | some name =>
        rw [← hk, hs, Option.toList_some, List.dropLast_concat]
      | none =>
        rw [hs, Option.toList_none, List.append_nil] at hk
        have hn : normalise moves = [] := (ht hs).elim (hu rfl) fun he => hk.symm.trans he
        rw [hk, hn]
        rfl
    · exact fun _ => .inl List.getLast?_concat

theorem lags_concat (moves : List (Move α)) (m : Move α) (h : Lags moves) :
    Lags (moves ++ [m]) := by
  have hl := h.longer
  have hu := List.length_pos_iff.mpr h.under
  unfold oneMark Walker.kept at hl
  rw [List.length_append] at hl
  cases m with
  | stay =>
    constructor
    · rw [oneMark, markAll_concat, normalise_concat]
      exact h.longer
    · rw [markAll_concat]
      exact h.under
  | into name =>
    constructor
    · rw [oneMark, markAll_concat, normalise_concat]
      simp only [Walker.kept, markStep, stackStep, Option.toList_some, List.length_append,
        List.length_singleton]
      omega
    · rw [markAll_concat]
      simp [Walker.kept, markStep, h.under]
  | up =>
    constructor
    · rw [oneMark, markAll_concat, normalise_concat]
      simp only [Walker.kept, markStep, stackStep, Option.toList_none, List.append_nil,
        List.length_dropLast]
      have ht : (markAll moves).top.toList.length ≤ 1 := by
        cases (markAll moves).top <;> simp
      omega
    · rw [markAll_concat]
      exact h.under

/-- The second of two moves up is where the walker begins to lag. -/
theorem lags_up (moves : List (Move α)) (h : Agrees moves)
    (hu : moves.getLast? = some .up) (hn : normalise moves ≠ []) : Lags (moves ++ [.up]) := by
  obtain ⟨pre, rfl⟩ := List.getLast?_eq_some_iff.mp hu
  have ht : (markAll (pre ++ [.up])).top = none := by rw [markAll_concat]; rfl
  have hk := h.kept
  unfold oneMark Walker.kept at hk
  rw [ht, Option.toList_none, List.append_nil] at hk
  have hpos := List.length_pos_iff.mpr hn
  constructor
  · rw [oneMark, markAll_concat, normalise_concat _ .up]
    simp only [Walker.kept, markStep, stackStep, Option.toList_none, List.append_nil, hk,
      List.length_dropLast]
    omega
  · rw [markAll_concat]
    simpa only [markStep, hk] using hn

theorem agrees_or_lags (moves : List (Move α)) (hm : ∀ m ∈ moves, m.moves = true) :
    Single moves ∧ Agrees moves ∨ ¬ Single moves ∧ Lags moves := by
  induction moves using List.reverseRecOn with
  | nil => exact .inl ⟨single_nil, rfl, fun _ => .inr rfl⟩
  | append_singleton moves m ih =>
    rw [single_concat]
    rcases ih fun p hp => hm p (by simp [hp]) with ⟨hs, ha⟩ | ⟨hs, hl⟩
    · by_cases hu : m = .up → moves.getLast? = some .up → normalise moves = []
      · exact .inl ⟨⟨hs, hu⟩, agrees_concat moves m (hm m (by simp)) ha hu⟩
      · refine .inr ⟨fun h => hu h.2, ?_⟩
        simp only [Classical.not_imp] at hu
        obtain ⟨rfl, hlast, hn⟩ := hu
        exact lags_up moves ha hlast hn
    · exact .inr ⟨fun h => hs h.1, lags_concat moves m hl⟩

theorem oneMark_eq (moves : List (Move α)) (h : ClimbsOnce moves) :
    oneMark moves = normalise moves := by
  rcases agrees_or_lags (moves.filter Move.moves) fun m hm => (List.mem_filter.mp hm).2 with
    ⟨-, ha⟩ | ⟨hs, -⟩
  · rw [← normalise_moving, ← ha.kept, oneMark, oneMark, markAll_moving]
  · exact absurd h hs

theorem oneMark_longer (moves : List (Move α)) (h : ¬ ClimbsOnce moves) :
    (normalise moves).length < (oneMark moves).length := by
  rcases agrees_or_lags (moves.filter Move.moves) fun m hm => (List.mem_filter.mp hm).2 with
    ⟨hs, -⟩ | ⟨-, hl⟩
  · exact absurd hs h
  · rw [← normalise_moving, oneMark, ← markAll_moving]
    exact hl.longer

end FasterConfig.PathStack
