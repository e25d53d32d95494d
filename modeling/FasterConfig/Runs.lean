import Mathlib.Data.List.Infix

/-!
# Runs of a machine driven by inputs

A machine is a step function on states. A property of single steps is
read along a whole run, and a relation kept by every step carries it from
one machine to another.
-/

set_option autoImplicit false

namespace FasterConfig.Runs

section
variable {S I A : Type*}

/-- `P` holds of every state in which the run takes an input, with that input. -/
def AtEach (step : S → I → S) (P : S → I → Prop) : S → List I → Prop
  | _, [] => True
  | s, i::is => P s i ∧ AtEach step P (step s i) is

theorem atEach_iff (step : S → I → S) (P : S → I → Prop) (s : S) (is : List I) :
    AtEach step P s is ↔ ∀ pre i, pre ++ [i] <+: is → P (pre.foldl step s) i := by
  induction is generalizing s with
  | nil =>
    apply iff_of_true trivial
    intro pre i h
    simp at h
  | cons j is ih =>
    rw [AtEach, ih]
    constructor
    · rintro ⟨hj, hr⟩ pre i h
      cases pre with
      | nil => simpa [(List.cons_prefix_cons.mp h).1] using hj
      | cons k pre =>
        obtain ⟨rfl, ht⟩ := List.cons_prefix_cons.mp h
        exact hr pre i ht
    · intro h
      refine ⟨h [] j ⟨is, rfl⟩, fun pre i hp => ?_⟩
      exact h (j::pre) i (List.cons_prefix_cons.mpr ⟨rfl, hp⟩)

theorem run_related (step : S → I → S) (astep : A → I → A) (R : S → A → Prop)
    (hr : ∀ s a i, R s a → R (step s i) (astep a i)) (s : S) (a : A) (is : List I) (h : R s a) :
    R (is.foldl step s) (is.foldl astep a) := by
  induction is generalizing s a with
  | nil => exact h
  | cons i is ih => exact ih _ _ (hr s a i h)

/-- Two machines related step by step have the same properties along a run
as far as related states have them. -/
theorem atEach_related (step : S → I → S) (astep : A → I → A) (R : S → A → Prop)
    (hr : ∀ s a i, R s a → R (step s i) (astep a i)) (P : S → I → Prop) (Q : A → I → Prop)
    (hpq : ∀ s a i, R s a → (P s i ↔ Q a i)) (s : S) (a : A) (is : List I) (h : R s a) :
    AtEach step P s is ↔ AtEach astep Q a is := by
  induction is generalizing s a with
  | nil => exact Iff.rfl
  | cons i is ih => exact and_congr (hpq s a i h) (ih _ _ (hr s a i h))

/-- A machine that not every input fits: what its steps keep, a run that goes through keeps. -/
theorem run_keeps (step : S → I → Option S) (P : S → Prop)
    (hstep : ∀ s i s', step s i = some s' → P s → P s') (is : List I) (s s' : S)
    (hrun : is.foldlM step s = some s') (h : P s) : P s' := by
  induction is generalizing s with
  | nil => exact Option.some.inj hrun ▸ h
  | cons i is ih =>
    rw [List.foldlM_cons] at hrun
    obtain ⟨t, ht, hrest⟩ := Option.bind_eq_some_iff.mp hrun
    exact ih t hrest (hstep s i t ht h)

/-- A value that some inputs set is what the last of them sets. -/
theorem foldl_last {V : Type*} (P : I → Bool) (g : I → V) (is : List I) (v : V) :
    is.foldl (fun v i => if P i then g i else v) v = ((is.filter P).getLast?.map g).getD v := by
  induction is using List.reverseRecOn with
  | nil => rfl
  | append_singleton is i ih =>
    rw [List.foldl_append, List.foldl_cons, List.foldl_nil, List.filter_append]
    by_cases hi : P i = true
    · rw [if_pos hi, List.filter_cons_of_pos hi, List.filter_nil, List.getLast?_concat]
      rfl
    · rw [if_neg hi, List.filter_cons_of_neg hi, List.filter_nil, List.append_nil, ih]

end

end FasterConfig.Runs
