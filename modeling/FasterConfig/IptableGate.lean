import FasterConfig.IptablePackets

/-!
# When the gate is up

The gate should be up while the gateway is locked. The flags of the loop lose
track in a phase that lasts a single tick: what was due in the next one is left
out. A second such phase right behind it makes up for the first, so what counts
is how many of them stand in a row in front of the present phase.
-/

set_option autoImplicit false

namespace FasterConfig.IptableGate
open FasterConfig.NatTable FasterConfig.PacketWalk FasterConfig.Iptable FasterConfig.Application
open FasterConfig.IptablePackets
open FasterConfig.IptableRestart (Without)

/-! ## Phases -/

structure Phase where
  locked : Bool
  ticks : ℕ
  deriving DecidableEq, Repr

def seen : List Phase → Bool → List Phase
  | [], o => [⟨o, 1⟩]
  | ph::phs, o => if ph.locked = o then ⟨o, ph.ticks+1⟩::phs else ⟨o, 1⟩::ph::phs

/-- The latest phase first. In front of the first tick the gateway counts as
long unlocked. -/
def phases (obs : List Bool) : List Phase := obs.foldl seen [⟨false, 2⟩]

/-- Phases of one tick in a row, from the first of the list on. -/
def blips : List Phase → ℕ
  | [] => 0
  | ph::phs => if ph.ticks = 1 then blips phs+1 else 0

def lockedNow (phs : List Phase) : Bool := (phs.head?.map Phase.locked).getD false

def lost (phs : List Phase) : Bool := blips phs.tail % 2 = 1

example : lost (phases [true, false, false]) = true ∧ lost (phases [true, false, true]) = false := by
  decide

/-! ## Phases and the ledger -/

/-- Both flags are set in the first tick of a phase that has not lost track. -/
def Turning (ph : Phase) (phs : List Phase) : Prop := ph.ticks = 1 ∧ lost (ph::phs) = false

structure Shown (l : Ledger) (ph : Phase) (phs : List Phase) : Prop where
  positive : 0 < ph.ticks
  turning : Turning ph phs → l = ⟨true, true, l.copies⟩
  settled : ¬ Turning ph phs → l = ⟨ph.locked, !ph.locked, l.copies⟩
  copies : l.copies ≠ 0 ↔ ph.locked = !lost (ph::phs)

theorem tick_turning (n : ℕ) (o : Bool) : Ledger.tick ⟨true, true, n⟩ o = ⟨o, !o, n⟩ := by
  cases o <;> rfl

theorem tick_stay (b : Bool) (n : ℕ) : Ledger.tick ⟨b, !b, n⟩ b = ⟨b, !b, n⟩ := by
  cases b <;> rfl

theorem tick_turn (b : Bool) (n : ℕ) :
    Ledger.tick ⟨b, !b, n⟩ (!b) = ⟨true, true, if b then 0 else n+1⟩ := by
  cases b <;> rfl

theorem lost_same (phs : List Phase) (ph ph' : Phase) : lost (ph::phs) = lost (ph'::phs) := rfl

theorem lost_turn (ph ph' : Phase) (phs : List Phase) :
    lost (ph'::ph::phs) = true ↔ Turning ph phs := by
  have hodd : lost (ph::phs) = false ↔ ¬ blips phs % 2 = 1 := decide_eq_false_iff_not
  rw [Turning, hodd, lost, List.tail_cons, blips, decide_eq_true_eq]
  split_ifs with h
  · rw [and_iff_right h]
    omega
  · exact iff_of_false (by simp) fun ht => h ht.1

theorem shown_stay (l : Ledger) (ph : Phase) (phs : List Phase) (h : Shown l ph phs) :
    Shown (l.tick ph.locked) ⟨ph.locked, ph.ticks+1⟩ phs := by
  have hafter : l.tick ph.locked = ⟨ph.locked, !ph.locked, l.copies⟩ := by
    by_cases ht : Turning ph phs
    · rw [h.turning ht, tick_turning]
    · rw [h.settled ht, tick_stay]
  rw [hafter]
  constructor
  · exact Nat.succ_pos _
  · intro ht
    exact absurd (Nat.succ.inj ht.1) (Nat.pos_iff_ne_zero.mp h.positive)
  · exact fun _ => rfl
  · exact h.copies

theorem shown_turn (l : Ledger) (ph : Phase) (phs : List Phase) (h : Shown l ph phs) :
    Shown (l.tick (!ph.locked)) ⟨!ph.locked, 1⟩ (ph::phs) := by
  have hlost := lost_turn ph ⟨!ph.locked, 1⟩ phs
  have hcopies := h.copies
  by_cases ht : Turning ph phs
  · have hl : lost (⟨!ph.locked, 1⟩::ph::phs) = true := hlost.mpr ht
    rw [h.turning ht, tick_turning]
    constructor
    · exact Nat.one_pos
    · exact fun hn => absurd (hl.symm.trans hn.2) (by decide)
    · exact fun _ => rfl
    · rw [ht.2, Bool.not_false] at hcopies
      rw [hl, hcopies]
      cases ph.locked <;> simp
  · have hl : lost (⟨!ph.locked, 1⟩::ph::phs) = false := by
      rw [← Bool.not_eq_true, hlost]
      exact ht
    rw [h.settled ht, tick_turn]
    constructor
    · exact Nat.one_pos
    · exact fun _ => rfl
    · exact fun hn => absurd ⟨rfl, hl⟩ hn
    · rw [hl]
      cases ph.locked <;> simp

theorem shown_seen (l : Ledger) (ph : Phase) (phs : List Phase) (o : Bool) (h : Shown l ph phs) :
    ∃ ph' phs', seen (ph::phs) o = ph'::phs' ∧ Shown (l.tick o) ph' phs' := by
  rw [seen]
  by_cases ho : ph.locked = o
  · subst ho
    rw [if_pos rfl]
    exact ⟨_, _, rfl, shown_stay l ph phs h⟩
  · obtain rfl : o = !ph.locked := by cases o <;> cases hl : ph.locked <;> simp_all
    rw [if_neg ho]
    exact ⟨_, _, rfl, shown_turn l ph phs h⟩

theorem shown_run (obs : List Bool) (l : Ledger) (ph : Phase) (phs : List Phase) (h : Shown l ph phs) :
    ∃ ph' phs', obs.foldl seen (ph::phs) = ph'::phs' ∧ Shown (obs.foldl Ledger.tick l) ph' phs' := by
  induction obs generalizing l ph phs with
  | nil => exact ⟨ph, phs, rfl, h⟩
  | cons o obs ih =>
    obtain ⟨ph', phs', hs, h'⟩ := shown_seen l ph phs o h
    rw [List.foldl_cons, List.foldl_cons, hs]
    exact ih _ _ _ h'

theorem shown_start : Shown ⟨false, true, 0⟩ ⟨false, 2⟩ [] where
  positive := by decide
  turning h := absurd h.1 (by decide)
  settled _ := rfl
  copies := by decide

/-- Rules are installed while the gateway is locked, or else while it is not. -/
theorem up_eq (obs : List Bool) : up obs = (lockedNow (phases obs) != lost (phases obs)) := by
  obtain ⟨ph, phs, hp, h⟩ := shown_run obs _ _ _ shown_start
  have hc := h.copies
  rw [phases, hp, up, lockedNow, List.head?_cons, Option.map_some, Option.getD_some]
  cases hl : ph.locked <;> cases ho : lost (ph::phs) <;> simp_all

/-! ## Queries and visits -/

section
variable {α ρ : Type*} (k : Kernel α ρ)

def gateAfter (s : Session) (p : Packet α ρ) (h : Hook) : End Verdict :=
  gate k s.conf (lockedNow (phases s.obs) != lost (phases s.obs)) p h

end

def plainKernel : Kernel String Unit where
  denotes text a := text = a
  otherApplies _ _ := false
  otherTarget _ := .through

def tetherQuery : Packet String Unit := ⟨"tether", some .udp, "8.8.8.8", 53, ()⟩

end FasterConfig.IptableGate
