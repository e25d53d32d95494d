import FasterConfig.NameTree

/-!
# Walking to a place in a tree of siblings

A walk follows a path through the first sibling of each name and gives the
place it ends at, as the positions among the siblings on its way. It may
create what is missing, each new directory in front of its siblings. A walk
and a change at its place make an update; names among siblings stay distinct.
-/

set_option autoImplicit false

namespace FasterConfig.NameTree

variable {κ α : Type*} [DecidableEq κ]

namespace Siblings

def locate (k : κ) : Siblings κ α → Option (ℕ × Dir κ α)
  | null => none
  | node name value children next =>
    if name = k then some (0, ⟨value, children⟩)
    else (next.locate k).map fun p => (p.1+1, p.2)

omit [DecidableEq κ] in
def get : Siblings κ α → ℕ → Option (κ × Dir κ α)
  | null, _ => none
  | node name value children _, 0 => some (name, ⟨value, children⟩)
  | node _ _ _ next, i+1 => next.get i

omit [DecidableEq κ] in
def setAt (d : Dir κ α) : Siblings κ α → ℕ → Siblings κ α
  | null, _ => null
  | node name _ _ next, 0 => node name d.value d.children next
  | node name value children next, i+1 => node name value children (next.setAt d i)

omit [DecidableEq κ] in
def names : Siblings κ α → List κ
  | null => []
  | node name _ _ next => name::next.names

omit [DecidableEq κ] in
def Distinct : Siblings κ α → Prop
  | null => True
  | node name _ children next => name ∉ next.names ∧ children.Distinct ∧ next.Distinct

theorem locate_scan (k : κ) (s : Siblings κ α) : (s.locate k).map Prod.snd = s.scan k := by
  induction s with
  | null => rfl
  | node name value children next _ ih =>
    rw [locate, scan]
    by_cases hk : name = k
    · rw [if_pos hk, if_pos hk, Option.map_some]
    · rw [if_neg hk, if_neg hk, Option.map_map, ← ih]
      rfl

theorem locate_spec (k : κ) (s : Siblings κ α) (i : ℕ) (c d : Dir κ α)
    (h : s.locate k = some (i, c)) : s.get i = some (k, c) ∧ s.setAt d i = s.set k d := by
  induction s generalizing i with
  | null => cases h
  | node name value children next _ ih =>
    rw [locate] at h
    by_cases hk : name = k
    · rw [if_pos hk] at h
      cases h
      rw [set, if_pos hk, hk]
      exact ⟨rfl, rfl⟩
    · rw [if_neg hk] at h
      obtain ⟨⟨j, e⟩, hj, he⟩ := Option.map_eq_some_iff.mp h
      cases he
      obtain ⟨hg, hs⟩ := ih j hj
      rw [set, if_neg hk, ← hs]
      exact ⟨hg, rfl⟩

omit [DecidableEq κ] in
theorem setAt_get (s : Siblings κ α) (i : ℕ) (k : κ) (c : Dir κ α) (h : s.get i = some (k, c)) :
    s.setAt c i = s := by
  induction s generalizing i with
  | null => rfl
  | node name value children next _ ih =>
    cases i with
    | zero =>
      cases h
      rfl
    | succ i => rw [setAt, ih i h]

omit [DecidableEq κ] in
theorem get_setAt (s : Siblings κ α) (i : ℕ) (k : κ) (c d : Dir κ α) (h : s.get i = some (k, c)) :
    (s.setAt d i).get i = some (k, d) := by
  induction s generalizing i with
  | null => cases h
  | node name value children next _ ih =>
    cases i with
    | zero =>
      cases h
      rfl
    | succ i => exact ih i h

omit [DecidableEq κ] in
theorem setAt_setAt (s : Siblings κ α) (i : ℕ) (d e : Dir κ α) :
    (s.setAt d i).setAt e i = s.setAt e i := by
  induction s generalizing i with
  | null => rfl
  | node name value children next _ ih =>
    cases i with
    | zero => rfl
    | succ i => rw [setAt, setAt, ih, setAt]

theorem names_set (k : κ) (d : Dir κ α) (s : Siblings κ α) : (s.set k d).names = s.names := by
  induction s with
  | null => rfl
  | node name value children next _ ih =>
    rw [set]
    split_ifs
    · rfl
    · rw [names, ih, names]

theorem scan_none_iff (k : κ) (s : Siblings κ α) : s.scan k = none ↔ k ∉ s.names := by
  induction s with
  | null => exact iff_of_true rfl List.not_mem_nil
  | node name value children next _ ih =>
    rw [scan, names, List.mem_cons, not_or]
    by_cases hk : name = k
    · simp [hk]
    · rw [if_neg hk, ih, and_iff_right (Ne.symm hk)]

theorem distinct_scan (k : κ) (s : Siblings κ α) (c : Dir κ α) (hd : s.Distinct)
    (h : s.scan k = some c) : c.children.Distinct := by
  induction s with
  | null => cases h
  | node name value children next _ ih =>
    rw [scan] at h
    by_cases hk : name = k
    · rw [if_pos hk] at h
      cases h
      exact hd.2.1
    · rw [if_neg hk] at h
      exact ih hd.2.2 h

theorem distinct_set (k : κ) (d : Dir κ α) (s : Siblings κ α) (hs : s.Distinct)
    (hd : d.children.Distinct) : (s.set k d).Distinct := by
  induction s with
  | null => trivial
  | node name value children next _ ih =>
    rw [set]
    by_cases hk : name = k
    · rw [if_pos hk]
      exact ⟨hs.1, hd, hs.2.2⟩
    · rw [if_neg hk]
      exact ⟨by rw [names_set]; exact hs.1, hs.2.1, ih hs.2.2⟩

end Siblings

namespace Dir

def Distinct (d : Dir κ α) : Prop := d.children.Distinct

/-! ## Walks -/

/-- With `createFlag` a missing directory is made around `v₀`. -/
def walk (v₀ : α) (createFlag : Bool) : List κ → Dir κ α → Dir κ α × Option (List ℕ)
  | [], d => (d, some [])
  | k::ks, d => match d.children.locate k with
    | some (i, c) =>
      let r := walk v₀ createFlag ks c
      (⟨d.value, d.children.setAt r.1 i⟩, r.2.map fun p => i::p)
    | none =>
      if createFlag then
        let r := walk v₀ createFlag ks ⟨v₀, .null⟩
        (⟨d.value, d.children.push k r.1⟩, r.2.map fun p => 0::p)
      else (d, none)

omit [DecidableEq κ] in
def nodeAt : List ℕ → Dir κ α → Option (Dir κ α)
  | [], d => some d
  | i::is, d => (d.children.get i).bind fun c => nodeAt is c.2

omit [DecidableEq κ] in
def modify (f : α → α) : List ℕ → Dir κ α → Dir κ α
  | [], d => ⟨f d.value, d.children⟩
  | i::is, d => match d.children.get i with
    | none => d
    | some (_, c) => ⟨d.value, d.children.setAt (modify f is c) i⟩

omit [DecidableEq κ] in
def route : List ℕ → Dir κ α → List κ
  | [], _ => []
  | i::is, d => match d.children.get i with
    | none => []
    | some (k, c) => k::route is c

theorem walk_false (v₀ : α) (ks : List κ) (d : Dir κ α) : (walk v₀ false ks d).1 = d := by
  induction ks generalizing d with
  | nil => rfl
  | cons k ks ih =>
    rw [walk]
    cases h : d.children.locate k with
    | none => rfl
    | some p =>
      obtain ⟨hg, -⟩ := Siblings.locate_spec k d.children p.1 p.2 p.2 h
      simp only [ih, Siblings.setAt_get d.children p.1 k p.2 hg]

theorem walk_none_iff (v₀ : α) (ks : List κ) (d : Dir κ α) :
    (walk v₀ false ks d).2 = none ↔ d.find ks = none := by
  induction ks generalizing d with
  | nil => simp [walk, find]
  | cons k ks ih =>
    rw [walk, find, ← Siblings.locate_scan]
    cases h : d.children.locate k with
    | none => simp
    | some p => simp [ih]

/-- The place that a walk ends at has the directory of the path, and the way there its
names. -/
theorem walk_place (v₀ : α) (ks : List κ) (d : Dir κ α) (place : List ℕ)
    (h : (walk v₀ false ks d).2 = some place) : d.nodeAt place = d.find ks ∧ d.route place = ks := by
  induction ks generalizing d place with
  | nil =>
    cases h
    exact ⟨rfl, rfl⟩
  | cons k ks ih =>
    rw [walk] at h
    cases hl : d.children.locate k with
    | none =>
      rw [hl] at h
      cases h
    | some p =>
      rw [hl] at h
      obtain ⟨rest, hr, rfl⟩ := Option.map_eq_some_iff.mp h
      obtain ⟨hg, -⟩ := Siblings.locate_spec k d.children p.1 p.2 p.2 hl
      obtain ⟨hn, ht⟩ := ih p.2 rest hr
      rw [nodeAt, route, hg, find, ← Siblings.locate_scan, hl]
      exact ⟨hn, congrArg (List.cons k) ht⟩

/-- A walk that creates what is missing, and a change at its place. -/
theorem walk_modify (v₀ : α) (f : α → α) (ks : List κ) (d : Dir κ α) :
    ∃ place, (walk v₀ true ks d).2 = some place ∧
      modify f place (walk v₀ true ks d).1 = update v₀ f ks d := by
  induction ks generalizing d with
  | nil => exact ⟨[], rfl, rfl⟩
  | cons k ks ih =>
    rw [walk, update, ← Siblings.locate_scan]
    cases hl : d.children.locate k with
    | none =>
      obtain ⟨place, hp, hm⟩ := ih ⟨v₀, .null⟩
      refine ⟨0::place, by simp [hp], ?_⟩
      rw [if_pos rfl, modify]
      simp only [Siblings.push, Siblings.get, Siblings.setAt, Option.map_none, hm]
    | some p =>
      obtain ⟨place, hp, hm⟩ := ih p.2
      obtain ⟨hg, hs⟩ := Siblings.locate_spec k d.children p.1 p.2 (update v₀ f ks p.2) hl
      refine ⟨p.1::place, by simp [hp], ?_⟩
      have hget := Siblings.get_setAt d.children p.1 k p.2 (walk v₀ true ks p.2).1 hg
      simp only [modify, hget, Siblings.setAt_setAt, hm, hs, Option.map_some]

/-! ## Updates -/

theorem distinct_update (v₀ : α) (f : α → α) (ks : List κ) (d : Dir κ α) (h : d.Distinct) :
    (update v₀ f ks d).Distinct := by
  induction ks generalizing d with
  | nil => exact h
  | cons k ks ih =>
    rw [update]
    cases hs : d.children.scan k with
    | none => exact ⟨(Siblings.scan_none_iff k d.children).mp hs, ih ⟨v₀, .null⟩ trivial, h⟩
    | some c =>
      have hc := Siblings.distinct_scan k d.children c h hs
      exact Siblings.distinct_set k _ d.children h (ih c hc)

theorem find_empty (v₀ : α) (q : List κ) : ((⟨v₀, .null⟩ : Dir κ α).find q).isSome ↔ q = [] := by
  cases q with
  | nil => simp [find]
  | cons j js => simp [find, Siblings.scan]

theorem find_cons_isSome (v₀ : α) (d : Dir κ α) (k : κ) (ks : List κ) :
    (d.find (k::ks)).isSome ↔ (d.children.scan k).isSome ∧ ((d.child v₀ k).find ks).isSome := by
  rw [find, child]
  cases d.children.scan k with
  | none => simp
  | some c => simp

theorem scan_update_isSome (v₀ : α) (f : α → α) (k j : κ) (ks : List κ) (d : Dir κ α) :
    ((update v₀ f (k::ks) d).children.scan j).isSome ↔ (d.children.scan j).isSome ∨ j = k := by
  rw [update]
  cases hs : d.children.scan k with
  | none =>
    simp only [Siblings.scan_push]
    by_cases hj : j = k <;> simp [hj]
  | some c =>
    simp only [Siblings.scan_set k j _ _ (by rw [hs]; rfl : (d.children.scan k).isSome)]
    by_cases hj : j = k
    · simp [hj]
    · simp [hj]

theorem find_update_isSome (v₀ : α) (f : α → α) (p q : List κ) (d : Dir κ α) :
    ((update v₀ f p d).find q).isSome ↔ (d.find q).isSome ∨ q <+: p := by
  induction p generalizing d q with
  | nil =>
    cases q with
    | nil => simp [find]
    | cons j js => simp [update, find]
  | cons k ks ih =>
    cases q with
    | nil => simp [find]
    | cons j js =>
      rw [find_cons_isSome v₀, find_cons_isSome v₀, scan_update_isSome, child_update,
        List.cons_prefix_cons]
      by_cases hj : j = k
      · rw [if_pos hj, ih, hj]
        -- a directory that was missing has nothing in it but itself
        have hnew : ((d.child v₀ k).find js).isSome → (d.children.scan k).isSome ∨ js <+: ks := by
          intro hf
          cases hs : d.children.scan k with
          | none =>
            rw [child, hs, Option.getD_none, find_empty] at hf
            exact .inr (hf ▸ List.nil_prefix)
          | some c => exact .inl rfl
        constructor
        · rintro ⟨-, hf | hp⟩
          · exact (hnew hf).imp (fun hs => ⟨hs, hf⟩) fun hp => ⟨rfl, hp⟩
          · exact .inr ⟨rfl, hp⟩
        · rintro (⟨-, hf⟩ | ⟨-, hp⟩)
          · exact ⟨.inr rfl, .inl hf⟩
          · exact ⟨.inr rfl, .inr hp⟩
      · rw [if_neg hj]
        simp [hj]

end Dir

end FasterConfig.NameTree
