import Mathlib.Data.List.Basic

/-!
# Trees of named siblings

A directory is a value and a chain of named children. Looking a path up
takes the first sibling of each name; updating at a path goes the same way
and pushes a missing directory in front of its siblings. Values along paths
then behave as a function of the path.
-/

set_option autoImplicit false

namespace FasterConfig.NameTree

inductive Siblings (κ α : Type*) where
  | null
  | node (name : κ) (value : α) (children next : Siblings κ α)
  deriving DecidableEq, Repr

structure Dir (κ α : Type*) where
  value : α
  children : Siblings κ α
  deriving DecidableEq, Repr

variable {κ α : Type*} [DecidableEq κ]

namespace Siblings

def scan (k : κ) : Siblings κ α → Option (Dir κ α)
  | null => none
  | node name value children next => if name = k then some ⟨value, children⟩ else next.scan k

def set (k : κ) (d : Dir κ α) : Siblings κ α → Siblings κ α
  | null => null
  | node name value children next =>
    if name = k then node name d.value d.children next else node name value children (next.set k d)

def push (k : κ) (d : Dir κ α) (s : Siblings κ α) : Siblings κ α := node k d.value d.children s

theorem scan_set (k j : κ) (d : Dir κ α) (s : Siblings κ α) (h : (s.scan k).isSome) :
    (s.set k d).scan j = if j = k then some d else s.scan j := by
  induction s with
  | null => exact absurd h Bool.false_ne_true
  | node name value children next _ ih =>
    rw [scan] at h
    by_cases hk : name = k
    · rw [set, if_pos hk, scan, scan, hk]
      by_cases hj : k = j
      · rw [if_pos hj, if_pos hj.symm]
      · rw [if_neg hj, if_neg hj, if_neg (Ne.symm hj)]
    · rw [if_neg hk] at h
      rw [set, if_neg hk, scan, scan, ih h]
      by_cases hj : name = j
      · rw [if_pos hj, if_pos hj, if_neg (fun he => hk (hj.trans he))]
      · rw [if_neg hj, if_neg hj]

theorem scan_push (k j : κ) (d : Dir κ α) (s : Siblings κ α) :
    (s.push k d).scan j = if j = k then some d else s.scan j := by
  rw [push, scan]
  by_cases hj : k = j
  · rw [if_pos hj, if_pos hj.symm]
  · rw [if_neg hj, if_neg (Ne.symm hj)]

end Siblings

namespace Dir

def find : Dir κ α → List κ → Option (Dir κ α)
  | d, [] => some d
  | d, k::ks => (d.children.scan k).bind fun c => c.find ks

/-- Follow a path, with missing directories created around `v₀`, and change the value there. -/
def update (v₀ : α) (f : α → α) : List κ → Dir κ α → Dir κ α
  | [], d => ⟨f d.value, d.children⟩
  | k::ks, d => match d.children.scan k with
    | some c => ⟨d.value, d.children.set k (update v₀ f ks c)⟩
    | none => ⟨d.value, d.children.push k (update v₀ f ks ⟨v₀, .null⟩)⟩

/-- The value at a path, `v₀` where there is no directory. -/
def valueAt (v₀ : α) (d : Dir κ α) (p : List κ) : α := (d.find p).elim v₀ Dir.value

def child (v₀ : α) (d : Dir κ α) (k : κ) : Dir κ α := (d.children.scan k).getD ⟨v₀, .null⟩

theorem valueAt_nil (v₀ : α) (d : Dir κ α) : d.valueAt v₀ [] = d.value := rfl

theorem valueAt_empty (v₀ : α) (p : List κ) : (⟨v₀, .null⟩ : Dir κ α).valueAt v₀ p = v₀ := by
  cases p <;> rfl

theorem valueAt_cons (v₀ : α) (d : Dir κ α) (k : κ) (ks : List κ) :
    d.valueAt v₀ (k::ks) = (d.child v₀ k).valueAt v₀ ks := by
  rw [child, valueAt, find]
  cases d.children.scan k with
  | none => exact (valueAt_empty v₀ ks).symm
  | some c => rfl

theorem child_update (v₀ : α) (f : α → α) (k j : κ) (ks : List κ) (d : Dir κ α) :
    (update v₀ f (k::ks) d).child v₀ j =
      if j = k then update v₀ f ks (d.child v₀ k) else d.child v₀ j := by
  cases h : d.children.scan k with
  | none =>
    simp only [update, child, h, Siblings.scan_push]
    split_ifs <;> rfl
  | some c =>
    simp only [update, child, h]
    rw [Siblings.scan_set k j _ _ (by rw [h]; rfl)]
    split_ifs <;> rfl

theorem value_update (v₀ : α) (f : α → α) (k : κ) (ks : List κ) (d : Dir κ α) :
    (update v₀ f (k::ks) d).value = d.value := by
  rw [update]
  split <;> rfl

theorem valueAt_update (v₀ : α) (f : α → α) (p q : List κ) (d : Dir κ α) :
    (update v₀ f p d).valueAt v₀ q = if q = p then f (d.valueAt v₀ p) else d.valueAt v₀ q := by
  induction p generalizing d q with
  | nil =>
    cases q with
    | nil => rfl
    | cons j js => rfl
  | cons k ks ih =>
    cases q with
    | nil => rw [valueAt_nil, value_update, if_neg (by simp), valueAt_nil]
    | cons j js =>
      rw [valueAt_cons, child_update]
      by_cases hj : j = k
      · rw [if_pos hj, ih, hj, valueAt_cons, valueAt_cons]
        simp only [List.cons.injEq, true_and]
      · rw [if_neg hj, if_neg (by simp [hj]), valueAt_cons v₀ d j js]

end Dir

end FasterConfig.NameTree
