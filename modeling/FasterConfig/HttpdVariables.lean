import FasterConfig.Strings

/-!
# Variables of a request

A request carries a chain of variables; each of them is the head of a chain
of the values that were added under its name. A lookup returns the head, so
a value added later under a name never replaces the first one.
-/

set_option autoImplicit false

namespace FasterConfig.HttpdVariables
open FasterConfig.Strings

variable {α : Type*}

/-- `nextValue` lists the values behind the first one. -/
structure HttpVar (α : Type*) where
  name : Text
  value : α
  nextValue : List α
  deriving DecidableEq, Repr

abbrev Variables (α : Type*) := List (HttpVar α) -- the nextVariable chain

def httpdGetVariableByName (vars : Variables α) (name : Text) : Option (HttpVar α) :=
  vars.find? fun curVar => curVar.name = name

def skipBlanks (name : Text) : Text := name.dropWhile fun c => c = 0x20 ∨ c = 0x09

def addValue (name : Text) (value : α) : Variables α → Variables α
  | [] => [⟨name, value, []⟩]
  | curVar::next =>
    if curVar.name = name then { curVar with nextValue := curVar.nextValue ++ [value] }::next
    else curVar::addValue name value next

def httpdAddVariable (vars : Variables α) (name : Text) (value : α) : Variables α :=
  addValue (skipBlanks name) value vars

def firstValue (vars : Variables α) (name : Text) : Option α :=
  (httpdGetVariableByName vars name).map HttpVar.value

@[simp] theorem firstValue_nil (name : Text) : firstValue ([] : Variables α) name = none := rfl

theorem firstValue_cons (curVar : HttpVar α) (next : Variables α) (name : Text) :
    firstValue (curVar::next) name =
      if curVar.name = name then some curVar.value else firstValue next name := by
  by_cases h : curVar.name = name
  · simp [firstValue, httpdGetVariableByName, h]
  · simp [firstValue, httpdGetVariableByName, h]

theorem firstValue_addValue (vars : Variables α) (name n : Text) (value : α) :
    firstValue (addValue name value vars) n =
      if n = name then some ((firstValue vars n).getD value) else firstValue vars n := by
  induction vars with
  | nil =>
    rw [addValue, firstValue_cons]
    by_cases h : n = name
    · simp [h]
    · simp [h, Ne.symm h]
  | cons curVar next ih =>
    rw [addValue]
    by_cases hc : curVar.name = name
    · rw [if_pos hc, firstValue_cons, firstValue_cons, hc]
      by_cases hn : n = name
      · simp [hn]
      · simp [hn, Ne.symm hn]
    · rw [if_neg hc, firstValue_cons, firstValue_cons, ih]
      by_cases hn : n = name
      · simp [hn, hc]
      · simp [hn]

/-- The first value under a name stays; a later one is only seen where there was none. -/
theorem firstValue_add (vars : Variables α) (name n : Text) (value : α) :
    firstValue (httpdAddVariable vars name value) n =
      if n = skipBlanks name then some ((firstValue vars n).getD value)
      else firstValue vars n :=
  firstValue_addValue vars (skipBlanks name) n value

def ValuesIn (P : α → Prop) (vars : Variables α) : Prop :=
  ∀ n v, firstValue vars n = some v → P v

theorem ValuesIn.add {P : α → Prop} {vars : Variables α} (h : ValuesIn P vars)
    (name : Text) (value : α) (hv : P value) : ValuesIn P (httpdAddVariable vars name value) := by
  intro n v hn
  rw [firstValue_add] at hn
  split_ifs at hn
  · cases hf : firstValue vars n with
    | none =>
      rw [hf] at hn
      exact Option.some.inj hn ▸ hv
    | some w =>
      rw [hf] at hn
      exact Option.some.inj hn ▸ h n w hf
  · exact h n v hn

end FasterConfig.HttpdVariables
