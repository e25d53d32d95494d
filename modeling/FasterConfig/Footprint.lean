import FasterConfig.Traced

/-!
# Runs that read in one part of memory

A run that keeps all its reads below a bound does the same, event by event, on
any memory that is the same there. This is proved of a computation step by
step, as it is put together.
-/

set_option autoImplicit false

namespace FasterConfig.Footprint
open FasterConfig.Memory FasterConfig.Traced

variable {ε α β : Type}

def Same (n : ℕ) (mem mem' : Mem) : Prop := ∀ i < n, mem' i = mem i

/-- If the first run stays below `n`, the second is the same. -/
def Local (n : ℕ) (r r' : Run Access α) : Prop := r.All (Access.Below n) → r' = r

theorem local_refl (n : ℕ) (r : Run Access α) : Local n r r := fun _ => rfl

theorem bind_congr (r : Run ε α) (f f' : α → Run ε β)
    (h : ∀ a, r.result = some a → f' a = f a) : r >>= f' = r >>= f := by
  obtain ⟨es, x⟩ := r
  cases x with
  | none => rfl
  | some a =>
    have ha := h a rfl
    change Run.mk (es ++ (f' a).events) (f' a).result = Run.mk (es ++ (f a).events) (f a).result
    rw [ha]

theorem Local.bind {n : ℕ} {r r' : Run Access α} (h : Local n r r') {f f' : α → Run Access β}
    (hf : ∀ a, r.result = some a → Local n (f a) (f' a)) : Local n (r >>= f) (r' >>= f') := by
  intro hall
  obtain ⟨hr, hrest⟩ := (Run.all_bind _ _ _).mp hall
  rw [h hr]
  exact bind_congr r f f' fun a ha => hf a ha (hrest a ha)

theorem Local.andThen {n : ℕ} {r r' : Run Access (Option α)} (h : Local n r r')
    {f f' : α → Run Access (Option β)} (hf : ∀ a, r.result = some (some a) → Local n (f a) (f' a)) :
    Local n (r.andThen f) (r'.andThen f') := by
  apply h.bind
  intro x hx
  cases x with
  | none => exact local_refl n _
  | some a => exact hf a hx

theorem slice_same {n : ℕ} {mem mem' : Mem} (h : Same n mem mem') (p k : ℕ) (hp : k = 0 ∨ p+k ≤ n) :
    slice mem' p k = slice mem p k := by
  induction k generalizing p with
  | zero => rfl
  | succ k ih =>
    rw [slice, slice, h p (by omega), ih (p+1) (by omega)]

theorem local_readOctets {n : ℕ} {mem mem' : Mem} (h : Same n mem mem') (p k : ℕ) :
    Local n (readOctets mem p k) (readOctets mem' p k) := by
  intro hall
  rw [readOctets, readOctets, slice_same h p k ((readOctets_below mem n p k).mp hall)]

theorem local_readOctet {n : ℕ} {mem mem' : Mem} (h : Same n mem mem') (p : ℕ) :
    Local n (readOctet mem p) (readOctet mem' p) := by
  intro hall
  rw [readOctet, readOctet, h p ((readOctet_below mem n p).mp hall)]

theorem local_read16 {n : ℕ} {mem mem' : Mem} (h : Same n mem mem') (p : ℕ) :
    Local n (read16 mem p) (read16 mem' p) := by
  intro hall
  have hp := (read16_below mem n p).mp hall
  rw [read16, read16, get16At, get16At, h p (by omega), h (p+1) hp]

end FasterConfig.Footprint
