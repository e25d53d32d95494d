import FasterConfig.Memory
import FasterConfig.Strings

/-!
# Runs that leave a trace

A computation with fuel records its events whether or not it comes to an end,
so that what it may touch is a property of the trace and not of the result.
Accesses to memory are the events used here.
-/

set_option autoImplicit false

namespace FasterConfig.Traced
open FasterConfig.Octets FasterConfig.Memory FasterConfig.Strings

/-- The events in order, and the result unless the fuel ran out. -/
structure Run (ε α : Type) where
  events : List ε
  result : Option α

namespace Run
variable {ε α β : Type}

def starved : Run ε α := ⟨[], none⟩

instance : Monad (Run ε) where
  pure a := ⟨[], some a⟩
  bind r f := match r.result with
    | none => ⟨r.events, none⟩
    | some a => ⟨r.events ++ (f a).events, (f a).result⟩

/-- Goes on with what a call that does not return FALSE leaves. -/
def andThen (r : Run ε (Option α)) (f : α → Run ε (Option β)) : Run ε (Option β) := do
  match ← r with
  | none => return none
  | some a => f a

def All (P : ε → Prop) (r : Run ε α) : Prop := ∀ e ∈ r.events, P e

@[simp] theorem result_pure (a : α) : (pure a : Run ε α).result = some a := rfl

@[simp] theorem all_pure (P : ε → Prop) (a : α) : (pure a : Run ε α).All P := by
  intro e h
  cases h

@[simp] theorem all_starved (P : ε → Prop) : (starved : Run ε α).All P := by
  intro e h
  cases h

@[simp] theorem result_bind (r : Run ε α) (f : α → Run ε β) :
    (r >>= f).result = r.result.bind fun a => (f a).result := by
  obtain ⟨es, x⟩ := r
  cases x <;> rfl

theorem all_bind (P : ε → Prop) (r : Run ε α) (f : α → Run ε β) :
    (r >>= f).All P ↔ r.All P ∧ ∀ a, r.result = some a → (f a).All P := by
  obtain ⟨es, x⟩ := r
  cases x with
  | none => exact ⟨fun h => ⟨h, by simp⟩, fun h => h.1⟩
  | some a =>
    constructor
    · intro h
      refine ⟨fun e he => h e (List.mem_append_left _ he), fun b hb => ?_⟩
      cases hb
      exact fun e he => h e (List.mem_append_right _ he)
    · intro h e he
      rcases List.mem_append.mp he with he | he
      · exact h.1 e he
      · exact h.2 a rfl e he

theorem result_andThen (r : Run ε (Option α)) (f : α → Run ε (Option β)) :
    (r.andThen f).result = r.result.bind fun x => x.elim (some none) fun a => (f a).result := by
  simp only [andThen, result_bind]
  congr 1
  funext x
  cases x <;> rfl

theorem result_andThen_some (r : Run ε (Option α)) (f : α → Run ε (Option β)) (b : β) :
    (r.andThen f).result = some (some b) ↔
      ∃ a, r.result = some (some a) ∧ (f a).result = some (some b) := by
  rw [result_andThen, Option.bind_eq_some_iff]
  constructor
  · rintro ⟨x, hx, h⟩
    cases x with
    | none => cases h
    | some a => exact ⟨a, hx, h⟩
  · rintro ⟨a, ha, h⟩
    exact ⟨some a, ha, h⟩

theorem all_andThen (P : ε → Prop) (r : Run ε (Option α)) (f : α → Run ε (Option β)) :
    (r.andThen f).All P ↔ r.All P ∧ ∀ a, r.result = some (some a) → (f a).All P := by
  rw [andThen, all_bind]
  constructor
  · exact fun h => ⟨h.1, fun a ha => h.2 _ ha⟩
  · refine fun h => ⟨h.1, fun x hx => ?_⟩
    cases x with
    | none => exact all_pure P none
    | some a => exact h.2 a hx

end Run

/-! ## Accesses -/

inductive Access where
  | read (place : ℕ)
  | write (place : ℕ)
  deriving DecidableEq, Repr

def Access.Below (n : ℕ) : Access → Prop
  | read place => place < n
  | write _ => True

def readOctets (mem : Mem) (p n : ℕ) : Run Access (List UInt8) :=
  ⟨(List.range' p n).map .read, some (slice mem p n)⟩

def readOctet (mem : Mem) (p : ℕ) : Run Access UInt8 := ⟨[.read p], some (mem p)⟩

def read16 (mem : Mem) (p : ℕ) : Run Access UInt16 :=
  ⟨[.read p, .read (p+1)], some (get16At mem p)⟩

def writeOctets (mem : Mem) (p : ℕ) (w : List UInt8) : Run Access Mem :=
  ⟨(List.range' p w.length).map .write, some (store mem p w)⟩

@[simp] theorem result_readOctets (mem : Mem) (p n : ℕ) :
    (readOctets mem p n).result = some (slice mem p n) := rfl

@[simp] theorem result_readOctet (mem : Mem) (p : ℕ) : (readOctet mem p).result = some (mem p) := rfl

@[simp] theorem result_read16 (mem : Mem) (p : ℕ) :
    (read16 mem p).result = some (get16At mem p) := rfl

@[simp] theorem result_writeOctets (mem : Mem) (p : ℕ) (w : List UInt8) :
    (writeOctets mem p w).result = some (store mem p w) := rfl

theorem readOctets_below (mem : Mem) (n p k : ℕ) :
    (readOctets mem p k).All (Access.Below n) ↔ k = 0 ∨ p+k ≤ n := by
  simp only [Run.All, readOctets, List.mem_map, forall_exists_index, and_imp,
    forall_apply_eq_imp_iff₂, Access.Below]
  exact range_below_iff p k n

@[simp] theorem readOctet_below (mem : Mem) (n p : ℕ) :
    (readOctet mem p).All (Access.Below n) ↔ p < n := by
  simp [Run.All, readOctet, Access.Below]

@[simp] theorem read16_below (mem : Mem) (n p : ℕ) :
    (read16 mem p).All (Access.Below n) ↔ p+1 < n := by
  simp only [Run.All, read16, List.mem_cons, List.not_mem_nil, or_false, forall_eq_or_imp,
    forall_eq, Access.Below]
  omega

@[simp] theorem writeOctets_below (mem : Mem) (n p : ℕ) (w : List UInt8) :
    (writeOctets mem p w).All (Access.Below n) := by
  intro e he
  obtain ⟨i, -, rfl⟩ := List.mem_map.mp he
  trivial

end FasterConfig.Traced
