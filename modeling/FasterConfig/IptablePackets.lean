import FasterConfig.PacketWalk
import FasterConfig.Application
import FasterConfig.IptableRestart

/-!
# What becomes of packets

The rules mean a gate: while it is up, name queries from the access point and
requests to the spoofed address go to the program's own ports. However often
the program was started before, and whatever the loop has seen since, the table
does with a packet what the administrator's rules do, and what they let through
the gate decides. Copies of the rules and of the jumps make no difference.
-/

set_option autoImplicit false

namespace FasterConfig.IptablePackets
open FasterConfig.NatTable FasterConfig.PacketWalk FasterConfig.Iptable FasterConfig.Application
open FasterConfig.IptableRestart (Without new_builtin)
open FasterConfig.Runs (run_related)

/-- `proto` is empty for what is neither UDP nor TCP; `rest` is what only other
programs' rules look at. -/
structure Packet (α ρ : Type*) where
  inInterface : String
  proto : Option Proto
  destination : α
  dport : ℕ
  rest : ρ

inductive Verdict where
  | redirect (toPorts : ℤ)
  | dnat (dest : String)
  | other (text : String)
  deriving DecidableEq, Repr

/-- How addresses and the rules of other programs are read. -/
structure Kernel (α ρ : Type*) where
  denotes : String → α → Bool
  otherApplies : String → Packet α ρ → Bool
  otherTarget : String → End Verdict

/-- A name that ends in a plus sign stands for all that begin so. -/
def onInterface (text name : String) : Bool :=
  if text.toList.getLast? = some '+' then text.toList.dropLast.isPrefixOf name.toList
  else text = name

section
variable {α ρ : Type*} (k : Kernel α ρ)

def reading : Reading Spec (Packet α ρ) Verdict where
  applies
    | .all, _ => true
    | .redirect i d proto dport _, p =>
      i.all (onInterface · p.inInterface) && d.all (k.denotes · p.destination) &&
        decide (p.proto = some proto ∧ dport = p.dport)
    | .dnat proto dport _, p => decide (p.proto = some proto ∧ dport = p.dport)
    | .other text, p => k.otherApplies text p
  target
    | .all => .through
    | .redirect _ _ _ _ toPorts => .verdict (.redirect toPorts)
    | .dnat _ _ dest => .verdict (.dnat dest)
    | .other text => k.otherTarget text

/-! ## The gate -/

def IsQuery (conf : Conf) (p : Packet α ρ) : Prop :=
  onInterface conf.apInterface p.inInterface = true ∧ p.proto.isSome ∧ p.dport = 53

def IsVisit (conf : Conf) (p : Packet α ρ) : Prop :=
  k.denotes conf.dnsIP p.destination = true ∧ p.proto = some .tcp ∧ p.dport = 80

instance (conf : Conf) (p : Packet α ρ) : Decidable (IsQuery conf p) := inferInstanceAs (Decidable (_ ∧ _))

instance (conf : Conf) (p : Packet α ρ) : Decidable (IsVisit k conf p) := inferInstanceAs (Decidable (_ ∧ _))

/-- What the redirector is for. -/
def gate (conf : Conf) (up : Bool) (p : Packet α ρ) : Hook → End Verdict
  | .prerouting =>
    if up = true ∧ IsQuery conf p then .verdict (.redirect conf.dnsPort)
    else if up = true ∧ IsVisit k conf p then .verdict (.redirect conf.HttpPort)
    else .through
  | .outgoing =>
    if up = true ∧ p.proto.isSome ∧ conf.dnsPort = p.dport then .verdict (.dnat "127.0.0.1:53")
    else .through
  | .incoming => .through
  | .postrouting => .through

/-! ## The chains of the program -/

theorem redirected_plain (conf : Conf) (n : ℕ) (h : Hook) :
    ∀ r ∈ redirected conf n h, r.jump = none := by
  intro r hr
  cases h with
  | outgoing =>
    obtain ⟨l, hl, hr⟩ := List.mem_flatten.mp hr
    rw [List.eq_of_mem_replicate hl, List.mem_pair] at hr
    rcases hr with rfl | rfl <;> rfl
  | prerouting =>
    rcases List.mem_append.mp hr with hr | hr
    · obtain ⟨l, hl, hr⟩ := List.mem_flatten.mp hr
      rw [List.eq_of_mem_replicate hl, List.mem_pair] at hr
      rcases hr with rfl | rfl <;> rfl
    · rw [List.eq_of_mem_replicate hr]
      rfl
  | incoming => cases hr
  | postrouting => cases hr

theorem settle_outgoing (conf : Conf) (p : Packet α ρ) :
    settle (reading k) p [dnsDnat conf.dnsPort .udp, dnsDnat conf.dnsPort .tcp] =
      gate k conf true p .outgoing := by
  by_cases hport : conf.dnsPort = p.dport
  · rcases hp : p.proto with _ | _ | _ <;> simp [settle, reading, dnsDnat, gate, hport, hp, End.orElse]
  · simp [settle, reading, dnsDnat, gate, hport]

theorem settle_queries (conf : Conf) (p : Packet α ρ) :
    settle (reading k) p [dnsRedirect conf.apInterface conf.dnsPort .tcp,
      dnsRedirect conf.apInterface conf.dnsPort .udp] =
      if IsQuery conf p then .verdict (.redirect conf.dnsPort) else .through := by
  by_cases hi : onInterface conf.apInterface p.inInterface = true
  · by_cases hport : p.dport = 53
    · rcases hp : p.proto with _ | _ | _ <;>
        simp [settle, reading, dnsRedirect, IsQuery, hi, hport, hp, End.orElse]
    · have hz : ¬ (53 : ℤ) = (p.dport : ℤ) := by omega
      simp [settle, reading, dnsRedirect, IsQuery, hport, hz]
  · simp [settle, reading, dnsRedirect, IsQuery, hi]

theorem settle_visits (conf : Conf) (p : Packet α ρ) :
    settle (reading k) p [httpRedirect conf.dnsIP conf.HttpPort] =
      if IsVisit k conf p then .verdict (.redirect conf.HttpPort) else .through := by
  have hz : (80 : ℤ) = (p.dport : ℤ) ↔ p.dport = 80 := by omega
  rw [settle, settle, orElse_through]
  apply if_congr _ rfl rfl
  simp [reading, httpRedirect, IsVisit, hz]

/-- Any number of copies of the rules is the gate. -/
theorem settle_redirected (conf : Conf) (n : ℕ) (p : Packet α ρ) (h : Hook) :
    settle (reading k) p (redirected conf n h) = gate k conf (decide (n ≠ 0)) p h := by
  cases n with
  | zero =>
    rw [redirected_zero]
    cases h <;> simp [settle, gate]
  | succ n =>
    have hup : decide (n+1 ≠ 0) = true := by simp
    rw [hup]
    cases h with
    | outgoing => rw [redirected, settle_copies, settle_outgoing]
    | prerouting =>
      have hvisits : settle (reading k) p (List.replicate (n+1) (httpRedirect conf.dnsIP conf.HttpPort)) =
          settle (reading k) p [httpRedirect conf.dnsIP conf.HttpPort] := by
        rw [← settle_copies (reading k) p [httpRedirect conf.dnsIP conf.HttpPort] n]
        simp
      rw [redirected, settle_append, settle_copies, hvisits, settle_queries, settle_visits]
      by_cases hq : IsQuery conf p
      · simp [gate, hq, End.orElse]
      · simp [gate, hq]
    | incoming => rfl
    | postrouting => rfl

theorem gate_returned (conf : Conf) (up : Bool) (p : Packet α ρ) (h : Hook) :
    (gate k conf up p h).returned = gate k conf up p h := by
  cases h with
  | outgoing => simp only [gate]; split_ifs <;> rfl
  | prerouting => simp only [gate]; split_ifs <;> rfl
  | incoming => rfl
  | postrouting => rfl

end

/-! ## What the program leaves alone -/

def Own (c : String) : Prop := ∃ h : Hook, c = h.chain

/-- The table `t` with jumps behind the rules of the built-in chains. -/
structure Extends (t t' : Firewall) : Prop where
  others : ∀ c, ¬ Own c → t'.rules? (.user c) = t.rules? (.user c)
  jumps : ∀ h : Hook, ∃ n, t'.builtin h.home = t.builtin h.home ++ List.replicate n (jump h.chain)

theorem Extends.trans {t t' t'' : Firewall} (h : Extends t t') (h' : Extends t' t'') :
    Extends t t'' where
  others c hc := (h'.others c hc).trans (h.others c hc)
  jumps k := by
    obtain ⟨n, hn⟩ := h.jumps k
    obtain ⟨m, hm⟩ := h'.jumps k
    refine ⟨n+m, ?_⟩
    rw [hm, hn, List.append_assoc, List.replicate_append_replicate]

theorem not_own (c : String) (hc : ¬ Own c) :
    chainOutgoing ≠ c ∧ chainPrerouting ≠ c ∧ chainIncoming ≠ c ∧ chainPostrouting ≠ c :=
  ⟨fun h => hc ⟨.outgoing, h.symm⟩, fun h => hc ⟨.prerouting, h.symm⟩,
    fun h => hc ⟨.incoming, h.symm⟩, fun h => hc ⟨.postrouting, h.symm⟩⟩

theorem destroy_others (t : Firewall) (c : String) (hc : ¬ Own c) :
    (iptableDestroyRule t).rules? (.user c) = t.rules? (.user c) :=
  rules_executeAll _ t _ (by simp [Command.target, not_own c hc])

theorem destroy_builtin (t : Firewall) (b : Builtin) :
    (iptableDestroyRule t).builtin b = t.builtin b :=
  builtin_executeAll _ t b (by simp [Command.target])

theorem new_others (t : Firewall) (c : String) (hc : ¬ Own c) :
    (newIptable t).rules? (.user c) = t.rules? (.user c) := by
  rw [newIptable, iptabelSetNewChain, rules_executeAll, destroy_others t c hc]
  simp [Command.target, not_own c hc]

theorem redirect_eq (conf : Conf) (t : Firewall) : redirect conf t = executeAll t
    [.insert (.user chainPrerouting) (dnsRedirect conf.apInterface conf.dnsPort .udp),
     .insert (.user chainPrerouting) (dnsRedirect conf.apInterface conf.dnsPort .tcp),
     .append (.user chainOutgoing) (dnsDnat conf.dnsPort .udp),
     .append (.user chainOutgoing) (dnsDnat conf.dnsPort .tcp),
     .append (.user chainPrerouting) (httpRedirect conf.dnsIP conf.HttpPort)] := rfl

theorem redirect_others (conf : Conf) (t : Firewall) (c : String) (hc : ¬ Own c) :
    (redirect conf t).rules? (.user c) = t.rules? (.user c) := by
  rw [redirect_eq, rules_executeAll]
  simp [Command.target, not_own c hc]

theorem redirect_builtin (conf : Conf) (t : Firewall) (b : Builtin) :
    (redirect conf t).builtin b = t.builtin b := by
  rw [redirect_eq, builtin_executeAll]
  simp [Command.target]

theorem new_extends (t : Firewall) : Extends t (newIptable t) where
  others := new_others t
  jumps h := ⟨1, new_builtin t h⟩

/-! ## Runs of the program -/

theorem loopBody_nat (conf : Conf) (s : State) (locked : Bool) :
    (loopBody conf s locked).nat = s.nat ∨ (loopBody conf s locked).nat = iptableDestroyRule s.nat ∨
      (loopBody conf s locked).nat = redirect conf s.nat := by
  cases locked with
  | true =>
    simp only [loopBody, if_true, Bool.true_eq_false, false_and, if_false, true_and]
    split_ifs <;> simp
  | false =>
    simp only [loopBody, Bool.false_eq_true, if_false, true_and, false_and]
    split_ifs <;> simp

structure Leaves (t t' : Firewall) : Prop where
  others : ∀ c, ¬ Own c → t'.rules? (.user c) = t.rules? (.user c)
  builtin : ∀ b, t'.builtin b = t.builtin b

theorem loopBody_leaves (conf : Conf) (s : State) (locked : Bool) :
    Leaves s.nat (loopBody conf s locked).nat := by
  rcases loopBody_nat conf s locked with hn | hn | hn
  · rw [hn]
    exact ⟨fun _ _ => rfl, fun _ => rfl⟩
  · rw [hn]
    exact ⟨destroy_others s.nat, destroy_builtin s.nat⟩
  · rw [hn]
    exact ⟨redirect_others conf s.nat, redirect_builtin conf s.nat⟩

theorem runLoop_leaves (conf : Conf) (s : State) (obs : List Bool) :
    Leaves s.nat (runLoop conf s obs).nat := by
  induction obs generalizing s with
  | nil => exact ⟨fun _ _ => rfl, fun _ => rfl⟩
  | cons o obs ih =>
    have hstep := loopBody_leaves conf s o
    have hrest := ih (loopBody conf s o)
    exact ⟨fun c hc => (hrest.others c hc).trans (hstep.others c hc),
      fun b => (hrest.builtin b).trans (hstep.builtin b)⟩

/-- One run of the program: its settings, and what it saw until it was ended. -/
structure Session where
  conf : Conf
  obs : List Bool

def Session.run (t : Firewall) (s : Session) : Firewall := (runLoop s.conf (startRun t) s.obs).nat

theorem run_leaves (t : Firewall) (s : Session) : Leaves (newIptable t) (s.run t) := by
  have hs : (startRun t).nat = newIptable t := by rw [startRun]
  rw [← hs, Session.run]
  exact runLoop_leaves s.conf (startRun t) s.obs

theorem run_extends (t : Firewall) (s : Session) : Extends t (s.run t) := by
  apply (new_extends t).trans
  constructor
  · exact (run_leaves t s).others
  · intro h
    refine ⟨0, ?_⟩
    rw [(run_leaves t s).builtin, List.replicate_zero, List.append_nil]

theorem run_jumps (t₀ t : Firewall) (s : Session) (h : Extends t₀ t) (k : Hook) :
    ∃ n, (s.run t).builtin k.home = t₀.builtin k.home ++ List.replicate (n+1) (jump k.chain) := by
  obtain ⟨n, hn⟩ := h.jumps k
  refine ⟨n, ?_⟩
  rw [(run_leaves t s).builtin, new_builtin, hn, List.append_assoc, List.replicate_succ']

def up (obs : List Bool) : Bool := (obs.foldl Ledger.tick ⟨false, true, 0⟩).copies ≠ 0

theorem run_carries (t : Firewall) (s : Session) :
    Carries (s.run t) (redirected s.conf (s.obs.foldl Ledger.tick ⟨false, true, 0⟩).copies) :=
  (run_related _ _ (Tracks s.conf) (fun u l o h => loopBody_tracks s.conf u l o h) _ _ s.obs
    (start_tracks s.conf t)).chains

/-! ## The fate of a packet -/

theorem without_avoids (t : Firewall) (ht : Without t) (c : String) (cs : List FwRule)
    (hc : t.rules? (.user c) = some cs) : Avoids Own cs := by
  rintro r hr _ hj ⟨h, rfl⟩
  have hm : (⟨c, cs⟩ : Σ _ : String, List FwRule) ∈ t.user.entries :=
    AList.mem_lookup_iff.mp hc
  have hany : t.referenced h.chain = true := by
    rw [Table.referenced, Bool.or_eq_true]
    right
    apply List.any_eq_true.mpr
    exact ⟨_, hm, List.any_eq_true.mpr ⟨r, hr, by simp [Rule.jumpsTo, hj]⟩⟩
  rw [(ht h).2] at hany
  cases hany

theorem without_builtin (t : Firewall) (ht : Without t) (b : Builtin) : Avoids Own (t.builtin b) := by
  rintro r hr _ hj ⟨h, rfl⟩
  have hany := referenced_of_builtin t h.chain b r hr hj
  rw [(ht h).2] at hany
  cases hany

section
variable {α ρ : Type*} (k : Kernel α ρ)

/-- A run on a table that has gained nothing but jumps and chains of the program: the table does with
a packet what the first one did, and what that let through the gate decides. -/
theorem fate_extended (t₀ : Firewall) (ht : Without t₀) (t : Firewall) (ht₀ : Extends t₀ t) (s : Session)
    (h : Hook) (p : Packet α ρ) (e : End Verdict) :
    Walks (reading k) (s.run t) p ((s.run t).builtin h.home) e ↔
      ∃ x, Walks (reading k) t₀ p (t₀.builtin h.home) x ∧
        e = x.orElse (gate k s.conf (up s.obs) p h) := by
  have hext : Extends t₀ (s.run t) := ht₀.trans (run_extends t s)
  have hcarry := run_carries t s
  obtain ⟨n, hn⟩ := run_jumps t₀ t s ht₀ h
  have hold : ∀ x, Walks (reading k) (s.run t) p (t₀.builtin h.home) x ↔
      Walks (reading k) t₀ p (t₀.builtin h.home) x :=
    walks_congr (reading k) t₀ p _ Own hext.others (fun c _ cs hc => without_avoids t₀ ht c cs hc) _
      (without_builtin t₀ ht h.home)
  have hnew : ∀ x, Walks (reading k) (s.run t) p (List.replicate (n+1) (jump h.chain)) x ↔
      x = gate k s.conf (up s.obs) p h := by
    intro x
    rw [walks_jumps (reading k) _ p (jump h.chain) h.chain _ rfl rfl (hcarry.contents h)
      (redirected_plain s.conf _ h), settle_redirected, gate_returned]
    rfl
  rw [hn, walks_append, follows_congr _ _ _ _ hold hnew, follows_eq_iff]

end

end FasterConfig.IptablePackets
