import Mathlib.Data.Fintype.Card
import Mathlib.Data.Set.Finite.Basic
import Mathlib.Logic.Relation

/-!
# Walks that come to an end

From a state that reaches only finitely many others every walk ends unless one
of the states reached lies on a cycle. What is left of a measure that no step
raises says on which steps a cycle can be.
-/

set_option autoImplicit false

namespace FasterConfig.Cycles
open Relation

section
variable {S : Type*} (r : S → S → Prop)

/-- No walk along `r` goes on for ever. -/
def Ends (a : S) : Prop := Acc (flip r) a

theorem ends_iff (a : S) : Ends r a ↔ ∀ b, r a b → Ends r b := by
  constructor
  · exact fun h b hb => h.inv hb
  · exact fun h => Acc.intro a h

theorem Ends.reached {r : S → S → Prop} {a b : S} (h : Ends r a) (hb : ReflTransGen r a b) :
    Ends r b := by
  induction hb with
  | refl => exact h
  | tail _ hbc ih => exact ih.inv hbc

theorem not_related_of_acc (q : S → S → Prop) (a : S) (h : Acc q a) : ¬ q a a := by
  induction h with
  | intro a _ ih => exact fun ha => ih a ha ha

theorem not_ends_of_cycle (a : S) (h : TransGen r a a) : ¬ Ends r a := by
  intro ha
  have hacc : Acc (TransGen (flip r)) a := ha.transGen
  exact not_related_of_acc _ a hacc (transGen_swap.mpr h)

theorem wellFounded_of_acyclic [Finite S] (h : ∀ a, ¬ TransGen r a a) : WellFounded (flip r) := by
  have htrans : IsTrans S (TransGen (flip r)) := ⟨fun _ _ _ => TransGen.trans⟩
  have hirrefl : Std.Irrefl (TransGen (flip r)) := ⟨fun a ha => h a (transGen_swap.mp ha)⟩
  exact Subrelation.wf TransGen.single (Finite.wellFounded_of_trans_of_irrefl (TransGen (flip r)))

theorem ends_of_restricted (a : S) (x : {b // ReflTransGen r a b})
    (h : Ends (fun y z : {b // ReflTransGen r a b} => r y z) x) : Ends r x := by
  induction h with
  | intro x _ ih =>
    rw [ends_iff]
    intro c hc
    exact ih ⟨c, x.property.tail hc⟩ hc

theorem ends_iff_acyclic (a : S) (hf : {b | ReflTransGen r a b}.Finite) :
    Ends r a ↔ ∀ b, ReflTransGen r a b → ¬ TransGen r b b := by
  constructor
  · exact fun h b hb hcycle => not_ends_of_cycle r b hcycle (h.reached hb)
  · intro h
    have hfin : Finite {b // ReflTransGen r a b} := hf
    have hwf : WellFounded (flip fun y z : {b // ReflTransGen r a b} => r y z) := by
      apply wellFounded_of_acyclic
      intro x hx
      exact h x x.property (hx.lift Subtype.val fun _ _ hyz => hyz)
    exact ends_of_restricted r a ⟨a, .refl⟩ (hwf.apply _)

/-- Where no step raises a measure, it stays as it is on a cycle. -/
theorem level_or_lower (level : S → S → Prop) (m : S → ℕ)
    (h : ∀ a b, r a b → m b < m a ∨ (m b = m a ∧ level a b)) (a b : S) (hab : TransGen r a b) :
    m b < m a ∨ (m b = m a ∧ TransGen level a b) := by
  induction hab with
  | single hb => exact (h a _ hb).imp_right (And.imp_right .single)
  | tail _ hbc ih =>
    rcases ih with ih | ⟨ih, hl⟩ <;> rcases h _ _ hbc with hm | ⟨hm, hs⟩
    · exact .inl (hm.trans ih)
    · exact .inl (hm ▸ ih)
    · exact .inl (ih ▸ hm)
    · exact .inr ⟨hm.trans ih, hl.tail hs⟩

theorem level_of_cycle (level : S → S → Prop) (m : S → ℕ)
    (h : ∀ a b, r a b → m b < m a ∨ (m b = m a ∧ level a b)) (a : S) (ha : TransGen r a a) :
    TransGen level a a := by
  rcases level_or_lower r level m h a a ha with hm | hm
  · exact absurd hm (Nat.lt_irrefl _)
  · exact hm.2

end

end FasterConfig.Cycles
