import FasterConfig.NatTable

/-!
# Packets in the nat table

A packet goes along the rules of a chain until one of them decides about it or
sends it back to where the chain was entered from. A jump goes on behind itself
when the other chain has not decided. Chains that enter each other without end
never let a packet go, so the walk has fuel. No rule of this table changes the
packet for the rules behind it.
-/

set_option autoImplicit false

namespace FasterConfig.PacketWalk
open FasterConfig.NatTable

/-- How a packet comes out of a chain. -/
inductive End (δ : Type*) where
  | through
  | back
  | verdict (d : δ)
  deriving DecidableEq, Repr

/-- Which packets a rule is for, and what a rule that does not jump does with them. -/
structure Reading (σ π δ : Type*) where
  applies : σ → π → Bool
  target : σ → End δ

section
variable {δ : Type*}

/-- Behind a jump nothing is left of a return. -/
def End.returned : End δ → End δ
  | .back => .through
  | e => e

def End.orElse : End δ → End δ → End δ
  | .through, e => e
  | e, _ => e

@[simp] theorem through_orElse (e : End δ) : End.through.orElse e = e := rfl

@[simp] theorem orElse_through (e : End δ) : e.orElse .through = e := by
  cases e <;> rfl

@[simp] theorem orElse_self (e : End δ) : e.orElse e = e := by
  cases e <;> rfl

theorem orElse_assoc (e f g : End δ) : (e.orElse f).orElse g = e.orElse (f.orElse g) := by
  cases e <;> rfl

theorem orElse_of_ne (e f : End δ) (h : e ≠ .through) : e.orElse f = e := by
  cases e with
  | through => exact absurd rfl h
  | back => rfl
  | verdict d => rfl

/-- One part and then another, where the first lets the packet through. -/
def Follows (A B : End δ → Prop) (e : End δ) : Prop :=
  ∃ x, A x ∧ ((x ≠ .through ∧ e = x) ∨ (x = .through ∧ B e))

theorem follows_through (B : End δ → Prop) (e : End δ) : Follows (· = .through) B e ↔ B e := by
  simp [Follows]

theorem follows_stop (A B : End δ → Prop) (e : End δ) (he : e ≠ .through) (h : A e) :
    Follows A B e := ⟨e, h, .inl ⟨he, rfl⟩⟩

theorem follows_congr (A A' B B' : End δ → Prop) (hA : ∀ e, A e ↔ A' e) (hB : ∀ e, B e ↔ B' e)
    (e : End δ) : Follows A B e ↔ Follows A' B' e := by
  simp only [Follows, hA, hB]

theorem follows_assoc (A B C : End δ → Prop) (e : End δ) :
    Follows (Follows A B) C e ↔ Follows A (Follows B C) e := by
  constructor
  · rintro ⟨x, ⟨y, hA, ⟨hy, rfl⟩ | ⟨rfl, hB⟩⟩, h⟩
    · exact ⟨x, hA, .inl ⟨hy, h.elim (fun h => h.2) fun h => absurd h.1 hy⟩⟩
    · exact ⟨.through, hA, .inr ⟨rfl, x, hB, h⟩⟩
  · rintro ⟨y, hA, ⟨hy, rfl⟩ | ⟨rfl, x, hB, h⟩⟩
    · exact follows_stop _ _ e hy (follows_stop _ _ e hy hA)
    · exact ⟨x, ⟨.through, hA, .inr ⟨rfl, hB⟩⟩, h⟩

theorem follows_eq_iff (A : End δ → Prop) (f e : End δ) :
    Follows A (· = f) e ↔ ∃ x, A x ∧ e = x.orElse f := by
  apply exists_congr
  intro x
  apply and_congr_right
  intro _
  by_cases hx : x = .through
  · simp [hx]
  · simp [hx, orElse_of_ne x f hx]

end

section
variable {ν σ π δ : Type*} [DecidableEq ν]

/-- The end of the rules for a packet, if there is fuel enough to reach it. -/
def walk (rd : Reading σ π δ) (t : Table ν σ) (p : π) : ℕ → List (Rule ν σ) → Option (End δ)
  | 0, _ => none
  | _+1, [] => some .through
  | fuel+1, r::rs =>
    let own := if rd.applies r.spec p then
        match r.jump with
        | none => some (rd.target r.spec)
        | some c => (t.rules? (.user c)).bind fun cs => (walk rd t p fuel cs).map End.returned
      else some .through
    own.bind fun e => match e with
      | .through => walk rd t p fuel rs
      | e => some e

def Walks (rd : Reading σ π δ) (t : Table ν σ) (p : π) (rs : List (Rule ν σ)) (e : End δ) : Prop :=
  ∃ fuel, walk rd t p fuel rs = some e

def RuleEnds (rd : Reading σ π δ) (t : Table ν σ) (p : π) (r : Rule ν σ) (e : End δ) : Prop :=
  if rd.applies r.spec p then
    match r.jump with
    | none => e = rd.target r.spec
    | some c => ∃ cs x, t.rules? (.user c) = some cs ∧ Walks rd t p cs x ∧ e = x.returned
  else e = .through

variable (rd : Reading σ π δ) (t : Table ν σ) (p : π)

theorem walk_succ (fuel : ℕ) (rs : List (Rule ν σ)) (e : End δ)
    (h : walk rd t p fuel rs = some e) : walk rd t p (fuel+1) rs = some e := by
  induction fuel generalizing rs e with
  | zero => cases h
  | succ fuel ih =>
    cases rs with
    | nil => exact h
    | cons r rs =>
      rw [walk] at h ⊢
      obtain ⟨x, hx, he⟩ := Option.bind_eq_some_iff.mp h
      apply Option.bind_eq_some_iff.mpr
      refine ⟨x, ?_, ?_⟩
      · split_ifs at hx ⊢ with ha
        · cases hj : r.jump with
          | none => simpa only [hj] using hx
          | some c =>
            simp only [hj, Option.bind_eq_some_iff, Option.map_eq_some_iff] at hx ⊢
            obtain ⟨cs, hcs, y, hy, hyx⟩ := hx
            exact ⟨cs, hcs, y, ih cs y hy, hyx⟩
        · exact hx
      · cases x with
        | through => exact ih rs e he
        | back => exact he
        | verdict d => exact he

theorem walk_le (fuel more : ℕ) (hle : fuel ≤ more) (rs : List (Rule ν σ)) (e : End δ)
    (h : walk rd t p fuel rs = some e) : walk rd t p more rs = some e := by
  induction more, hle using Nat.le_induction with
  | base => exact h
  | succ more _ ih => exact walk_succ rd t p more rs e ih

@[simp] theorem walks_nil (e : End δ) : Walks rd t p [] e ↔ e = .through := by
  constructor
  · rintro ⟨fuel, h⟩
    cases fuel with
    | zero => cases h
    | succ fuel => exact (Option.some.inj h).symm
  · rintro rfl
    exact ⟨1, rfl⟩

theorem walks_cons (r : Rule ν σ) (rs : List (Rule ν σ)) (e : End δ) :
    Walks rd t p (r::rs) e ↔ Follows (RuleEnds rd t p r) (Walks rd t p rs) e := by
  constructor
  · rintro ⟨fuel, h⟩
    cases fuel with
    | zero => cases h
    | succ fuel =>
      rw [walk] at h
      obtain ⟨x, hx, he⟩ := Option.bind_eq_some_iff.mp h
      refine ⟨x, ?_, ?_⟩
      · rw [RuleEnds]
        split_ifs at hx ⊢ with ha
        · cases hj : r.jump with
          | none => simpa only [hj, Option.some.injEq, eq_comm] using hx
          | some c =>
            simp only [hj, Option.bind_eq_some_iff, Option.map_eq_some_iff] at hx
            obtain ⟨cs, hcs, y, hy, hyx⟩ := hx
            exact ⟨cs, y, hcs, ⟨fuel, hy⟩, hyx.symm⟩
        · exact (Option.some.inj hx).symm
      · cases x with
        | through => exact .inr ⟨rfl, fuel, he⟩
        | back => exact .inl ⟨by simp, (Option.some.inj he).symm⟩
        | verdict d => exact .inl ⟨by simp, (Option.some.inj he).symm⟩
  · rintro ⟨x, hx, h⟩
    obtain ⟨n, hn⟩ : ∃ n, ∀ fuel, n ≤ fuel →
        (if rd.applies r.spec p then
          match r.jump with
          | none => some (rd.target r.spec)
          | some c => (t.rules? (.user c)).bind fun cs => (walk rd t p fuel cs).map End.returned
        else some End.through) = some x := by
      rw [RuleEnds] at hx
      split_ifs at hx ⊢ with ha
      · cases hj : r.jump with
        | none =>
          rw [hj] at hx
          exact ⟨0, fun fuel _ => congrArg some hx.symm⟩
        | some c =>
          rw [hj] at hx
          obtain ⟨cs, y, hcs, ⟨n, hn⟩, rfl⟩ := hx
          refine ⟨n, fun fuel hf => ?_⟩
          simp only [hcs, Option.bind_some, walk_le rd t p n fuel hf cs y hn, Option.map_some]
      · exact ⟨0, fun fuel _ => congrArg some hx.symm⟩
    rcases h with ⟨hne, rfl⟩ | ⟨rfl, m, hm⟩
    · refine ⟨n+1, ?_⟩
      rw [walk, hn n (le_refl n), Option.bind_some]
      cases e with
      | through => exact absurd rfl hne
      | back => rfl
      | verdict d => rfl
    · refine ⟨max n m+1, ?_⟩
      rw [walk, hn _ (le_max_left n m), Option.bind_some]
      exact walk_le rd t p m _ (le_max_right n m) rs e hm

theorem walks_append (rs qs : List (Rule ν σ)) (e : End δ) :
    Walks rd t p (rs ++ qs) e ↔ Follows (Walks rd t p rs) (Walks rd t p qs) e := by
  induction rs generalizing e with
  | nil =>
    rw [List.nil_append, ← follows_through (Walks rd t p qs) e]
    exact follows_congr _ _ _ _ (fun e => (walks_nil rd t p e).symm) (fun _ => Iff.rfl) e
  | cons r rs ih =>
    rw [List.cons_append, walks_cons, follows_congr _ _ _ _ (fun _ => Iff.rfl) ih, ← follows_assoc]
    exact follows_congr _ _ _ _ (fun e => (walks_cons rd t p r rs e).symm) (fun _ => Iff.rfl) e

/-! ## Chains that are not entered -/

def Avoids (own : ν → Prop) (rs : List (Rule ν σ)) : Prop := ∀ r ∈ rs, ∀ c, r.jump = some c → ¬ own c

/-- Chains that no other one enters may hold anything. -/
theorem walk_congr (t' : Table ν σ) (own : ν → Prop)
    (hsame : ∀ c, ¬ own c → t'.rules? (.user c) = t.rules? (.user c))
    (hclosed : ∀ c, ¬ own c → ∀ cs, t.rules? (.user c) = some cs → Avoids own cs) (fuel : ℕ)
    (rs : List (Rule ν σ)) (hrs : Avoids own rs) :
    walk rd t' p fuel rs = walk rd t p fuel rs := by
  induction fuel generalizing rs with
  | zero => rfl
  | succ fuel ih =>
    cases rs with
    | nil => rfl
    | cons r rs =>
      have htail : walk rd t' p fuel rs = walk rd t p fuel rs :=
        ih rs fun q hq => hrs q (List.mem_cons_of_mem r hq)
      rw [walk, walk, htail]
      cases hj : r.jump with
      | none => rfl
      | some c =>
        have hc : ¬ own c := hrs r List.mem_cons_self c hj
        simp only [hsame c hc]
        cases hcs : t.rules? (.user c) with
        | none => rfl
        | some cs => simp only [Option.bind_some, ih cs (hclosed c hc cs hcs)]

theorem walks_congr (t' : Table ν σ) (own : ν → Prop)
    (hsame : ∀ c, ¬ own c → t'.rules? (.user c) = t.rules? (.user c))
    (hclosed : ∀ c, ¬ own c → ∀ cs, t.rules? (.user c) = some cs → Avoids own cs)
    (rs : List (Rule ν σ)) (hrs : Avoids own rs) (e : End δ) :
    Walks rd t' p rs e ↔ Walks rd t p rs e :=
  exists_congr fun fuel => by rw [walk_congr rd t p t' own hsame hclosed fuel rs hrs]

/-! ## Rules that do not jump -/

/-- The end of rules none of which jumps. -/
def settle (rd : Reading σ π δ) (p : π) : List (Rule ν σ) → End δ
  | [] => .through
  | r::rs => (if rd.applies r.spec p then rd.target r.spec else .through).orElse (settle rd p rs)

theorem walks_plain (rs : List (Rule ν σ)) (h : ∀ r ∈ rs, r.jump = none) (e : End δ) :
    Walks rd t p rs e ↔ e = settle rd p rs := by
  induction rs generalizing e with
  | nil => exact walks_nil rd t p e
  | cons r rs ih =>
    have hr : ∀ x, RuleEnds rd t p r x ↔
        x = if rd.applies r.spec p then rd.target r.spec else .through := by
      intro x
      rw [RuleEnds, h r List.mem_cons_self]
      split_ifs <;> rfl
    have hrs : ∀ x, Walks rd t p rs x ↔ x = settle rd p rs :=
      fun x => ih (fun q hq => h q (List.mem_cons_of_mem r hq)) x
    rw [walks_cons, follows_congr _ _ _ _ hr hrs, follows_eq_iff, settle, exists_eq_left]

omit [DecidableEq ν] in
theorem settle_append (rs qs : List (Rule ν σ)) :
    settle rd p (rs ++ qs) = (settle rd p rs).orElse (settle rd p qs) := by
  induction rs with
  | nil => rfl
  | cons r rs ih => rw [List.cons_append, settle, settle, ih, orElse_assoc]

omit [DecidableEq ν] in
/-- A second copy of the rules finds nothing left to do. -/
theorem settle_copies (rs : List (Rule ν σ)) (n : ℕ) :
    settle rd p (List.replicate (n+1) rs).flatten = settle rd p rs := by
  induction n with
  | zero => simp
  | succ n ih => rw [List.replicate_succ, List.flatten_cons, settle_append, ih, orElse_self]

/-! ## Jumps to such rules -/

/-- Any number of jumps to a chain does what one of them does. -/
theorem walks_jumps (j : Rule ν σ) (c : ν) (cs : List (Rule ν σ)) (hj : j.jump = some c)
    (ha : rd.applies j.spec p = true) (hc : t.rules? (.user c) = some cs)
    (hcs : ∀ r ∈ cs, r.jump = none) (n : ℕ) (e : End δ) :
    Walks rd t p (List.replicate (n+1) j) e ↔ e = (settle rd p cs).returned := by
  have hone : ∀ x, RuleEnds rd t p j x ↔ x = (settle rd p cs).returned := by
    intro x
    simp only [RuleEnds, ha, if_true, hj, hc, Option.some.injEq, exists_and_left, exists_eq_left',
      walks_plain rd t p cs hcs, exists_eq_left]
  induction n generalizing e with
  | zero =>
    rw [List.replicate_one, walks_cons, follows_congr _ _ _ _ hone (walks_nil rd t p),
      follows_eq_iff, exists_eq_left, orElse_through]
  | succ n ih =>
    rw [List.replicate_succ, walks_cons, follows_congr _ _ _ _ hone ih, follows_eq_iff,
      exists_eq_left, orElse_self]

end

end FasterConfig.PacketWalk
