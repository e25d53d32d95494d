import FasterConfig.Iptable
import FasterConfig.Runs

/-!
# The main loop and the rules it keeps

Each tick observes whether the gateway is locked and moves two flags that
decide when the firewall is written. A ledger with the flags and the number
of installed copies is enough to follow the loop: the real table carries
exactly that many copies of the redirect rules. The flags lag one tick
behind the observation, which is why a phase of a single tick goes wrong.
-/

set_option autoImplicit false

namespace FasterConfig.Application
open FasterConfig.NatTable FasterConfig.Iptable FasterConfig.Runs

structure State where
  isRedirected : ℤ
  isDestroied : ℤ
  nat : Firewall

def startRun (t : Firewall) : State := ⟨0, 1, newIptable t⟩

/-- One pass of `while (1)`; `locked` is what the lock file and the network
interface show in this pass. -/
def loopBody (conf : Conf) (s : State) (locked : Bool) : State :=
  let s₁ := if locked then
      if s.isRedirected = 1 then { s with isDestroied := 0 } else s
    else
      if s.isDestroied = 1 then { s with isRedirected := 0 } else s
  let s₂ := if locked = false ∧ s₁.isDestroied ≠ 1 then
      { s₁ with isDestroied := 1, nat := iptableDestroyRule s₁.nat } else s₁
  if locked = true ∧ s₂.isRedirected ≠ 1 then
    { s₂ with isRedirected := 1, nat := redirect conf s₂.nat } else s₂

def runLoop (conf : Conf) (s : State) (obs : List Bool) : State := obs.foldl (loopBody conf) s

/-! ## The ledger -/

structure Ledger where
  redirected : Bool
  destroyed : Bool
  copies : ℕ
  deriving DecidableEq, Repr

def Ledger.tick (l : Ledger) : Bool → Ledger
  | true => if l.redirected then { l with destroyed := false }
      else { l with redirected := true, copies := l.copies+1 }
  | false => if l.destroyed then { l with redirected := false }
      else { l with destroyed := true, copies := 0 }

structure Tracks (conf : Conf) (s : State) (l : Ledger) : Prop where
  redirectFlag : s.isRedirected = if l.redirected then 1 else 0
  destroyFlag : s.isDestroied = if l.destroyed then 1 else 0
  chains : Carries s.nat (redirected conf l.copies)

theorem start_tracks (conf : Conf) (t : Firewall) :
    Tracks conf (startRun t) ⟨false, true, 0⟩ where
  redirectFlag := by simp [startRun]
  destroyFlag := by simp [startRun]
  chains := by simpa only [startRun, redirected_zero] using new_hooked t

theorem loopBody_tracks (conf : Conf) (s : State) (l : Ledger) (locked : Bool)
    (h : Tracks conf s l) : Tracks conf (loopBody conf s locked) (l.tick locked) := by
  obtain ⟨r, d, nat⟩ := s
  obtain ⟨lr, ld, n⟩ := l
  obtain ⟨hr, hd, hh⟩ := h
  simp only at hr hd hh
  subst hr hd
  cases locked with
  | true =>
    cases lr with
    | true => exact ⟨by simp [loopBody, Ledger.tick], by simp [loopBody, Ledger.tick],
        by simpa [loopBody, Ledger.tick] using hh⟩
    | false => exact ⟨by simp [loopBody, Ledger.tick], by simp [loopBody, Ledger.tick],
        by simpa [loopBody, Ledger.tick] using redirect_redirected conf nat n hh⟩
  | false =>
    cases ld with
    | true => exact ⟨by simp [loopBody, Ledger.tick], by simp [loopBody, Ledger.tick],
        by simpa [loopBody, Ledger.tick] using hh⟩
    | false => exact ⟨by simp [loopBody, Ledger.tick], by simp [loopBody, Ledger.tick],
        by simpa [loopBody, Ledger.tick, redirected_zero] using destroy_hooked nat _ hh⟩

/-! ## Which observations go well -/

/-- Some phase of equal observations lasts one tick between two opposite ones;
before the first tick the gateway counts as unlocked. -/
def OneTickPhase (obs : List Bool) : Prop := ∃ b : Bool, [!b, b, !b] <:+: false::obs

def Flips (xs : List Bool) : Prop := ∃ b : Bool, [!b, b, !b] <:+: xs

theorem flips_cons (a : Bool) (xs : List Bool) :
    Flips (a::xs) ↔ (∃ b : Bool, [!b, b, !b] <+: a::xs) ∨ Flips xs := by
  simp only [Flips, List.infix_cons_iff, exists_or]

theorem flips_repeat (a : Bool) (xs : List Bool) : Flips (a::a::xs) ↔ Flips (a::xs) := by
  rw [flips_cons]
  apply or_iff_right
  rintro ⟨b, h⟩
  obtain ⟨h1, h2⟩ := List.cons_prefix_cons.mp h
  have h3 := (List.cons_prefix_cons.mp h2).1
  cases a <;> cases b <;> simp_all

theorem flips_fresh (a : Bool) (xs : List Bool) : Flips ((!a)::a::(!a)::xs) := by
  exact ⟨a, [], xs, rfl⟩

theorem flips_turn (a : Bool) (xs : List Bool) : Flips ((!a)::a::a::xs) ↔ Flips (a::xs) := by
  rw [flips_cons, flips_repeat]
  apply or_iff_right
  rintro ⟨b, h⟩
  obtain ⟨h1, h2⟩ := List.cons_prefix_cons.mp h
  obtain ⟨h3, h4⟩ := List.cons_prefix_cons.mp h2
  have h5 := (List.cons_prefix_cons.mp h4).1
  cases a <;> cases b <;> simp_all

/-- The ledger while the observation is `last`, for the first tick of the
phase or settled after it. -/
def phase : Bool → Bool → Ledger
  | false, true => ⟨false, true, 0⟩
  | true, false => ⟨true, true, 1⟩
  | true, true => ⟨true, false, 1⟩
  | false, false => ⟨true, true, 0⟩

def wanted (locked : Bool) : ℕ := if locked then 1 else 0

def Right (l : Ledger) (locked : Bool) : Prop :=
  (l.tick locked).copies = wanted locked

theorem phase_stays (last settled : Bool) :
    Right (phase last settled) last ∧ (phase last settled).tick last = phase last true := by
  cases last <;> cases settled <;> exact ⟨rfl, rfl⟩

theorem phase_turns (last : Bool) :
    Right (phase last true) (!last) ∧ (phase last true).tick (!last) = phase (!last) false := by
  cases last <;> exact ⟨rfl, rfl⟩

theorem phase_slips (last : Bool) : ¬ Right (phase last false) (!last) := by
  cases last <;> simp [Right, phase, Ledger.tick, wanted]

theorem ledger_right_iff (obs : List Bool) (last : Bool) :
    (AtEach Ledger.tick Right (phase last true) obs ↔ ¬ Flips (last::obs)) ∧
      (AtEach Ledger.tick Right (phase last false) obs ↔ ¬ Flips ((!last)::last::obs)) := by
  induction obs generalizing last with
  | nil =>
    constructor <;> refine iff_of_true trivial ?_ <;> rintro ⟨b, h⟩ <;>
      simpa using h.length_le
  | cons o obs ih =>
    rcases eq_or_ne o last with rfl | hne
    · simp only [AtEach, phase_stays, true_and, flips_repeat, flips_turn, (ih o).1, and_self]
    · obtain rfl : o = !last := by cases o <;> cases last <;> simp_all
      constructor
      · simpa only [AtEach, phase_turns, true_and, Bool.not_not] using (ih (!last)).2
      · exact iff_of_false (fun h => phase_slips last h.1) (not_not_intro (flips_fresh last obs))

/-! ## The table after every tick -/

def InstalledOnce (conf : Conf) (t : Firewall) : Prop := ∀ p ∈ redirectRules conf, installed t p = 1

def NoneInstalled (conf : Conf) (t : Firewall) : Prop := ∀ p ∈ redirectRules conf, installed t p = 0

def Settled (conf : Conf) (s : State) (locked : Bool) : Prop :=
  (locked = true → InstalledOnce conf s.nat) ∧ (locked = false → NoneInstalled conf s.nat)

theorem settled_iff (conf : Conf) (s : State) (l : Ledger) (locked : Bool) (h : Tracks conf s l) :
    Settled conf (loopBody conf s locked) locked ↔ Right l locked := by
  have hn := installed_redirected conf _ _ (loopBody_tracks conf s l locked h).chains
  have hm : (Hook.prerouting, dnsRedirect conf.apInterface conf.dnsPort .udp) ∈
      redirectRules conf := by simp [redirectRules]
  have hk : ∀ k : ℕ, (∀ p ∈ redirectRules conf,
      installed (loopBody conf s locked).nat p = k) ↔ (l.tick locked).copies = k :=
    fun k => ⟨fun ha => (hn _ hm).symm.trans (ha _ hm), fun hk p hp => (hn p hp).trans hk⟩
  cases locked with
  | true => simpa only [Settled, InstalledOnce, Right, wanted, if_true, forall_const,
      Bool.true_eq_false, false_implies, and_true] using hk 1
  | false => simpa only [Settled, NoneInstalled, Right, wanted, Bool.false_eq_true, if_false,
      forall_const, false_implies, true_and] using hk 0

theorem settled_run_iff (conf : Conf) (t : Firewall) (obs : List Bool) :
    AtEach (loopBody conf) (fun s o => Settled conf (loopBody conf s o) o) (startRun t) obs ↔
      ¬ OneTickPhase obs :=
  (atEach_related (loopBody conf) Ledger.tick (Tracks conf)
    (fun s l o h => loopBody_tracks conf s l o h) _ Right
    (fun s l o h => settled_iff conf s l o h) _ _ obs (start_tracks conf t)).trans
    (ledger_right_iff obs false).1

/-- Started on any table, with any settings, the table follows the observations
through a whole run exactly when no phase of them lasts a single tick. -/
theorem run_follows_observations_iff (conf : Conf) (t : Firewall) (obs : List Bool) :
    (∀ pre locked, pre ++ [locked] <+: obs →
      Settled conf (runLoop conf (startRun t) (pre ++ [locked])) locked) ↔
    ¬ OneTickPhase obs := by
  rw [← settled_run_iff conf t obs, atEach_iff]
  simp only [runLoop, List.foldl_append, List.foldl_cons, List.foldl_nil]

def shipped : Conf where
  dnsPort := 2048
  dnsIP := "172.31.1.2"
  HttpPort := 2049
  gatewayIP := "192.168.100.1"
  apInterface := "tether"

def emptyTable : Firewall := ⟨fun _ => [], ∅⟩

/-- Locked for one tick and then unlocked, the rules stay; locked again, every
rule is there twice. -/
theorem one_tick_lock_leaves_rules :
    ¬ Settled shipped (runLoop shipped (startRun emptyTable) [true, false]) false ∧
      ∀ p ∈ redirectRules shipped,
        installed (runLoop shipped (startRun emptyTable) [true, false, true]).nat p = 2 := by
  have hl : ∀ obs, Tracks shipped (runLoop shipped (startRun emptyTable) obs)
      (obs.foldl Ledger.tick ⟨false, true, 0⟩) := fun obs =>
    run_related _ _ (Tracks shipped) (fun s l o h => loopBody_tracks shipped s l o h)
      _ _ obs (start_tracks shipped emptyTable)
  constructor
  · have hs := settled_iff shipped _ _ false (hl [true])
    exact fun h => absurd (hs.mp h) (by simp [Right, Ledger.tick, wanted])
  · exact installed_redirected shipped _ 2 (hl [true, false, true]).chains

end FasterConfig.Application
