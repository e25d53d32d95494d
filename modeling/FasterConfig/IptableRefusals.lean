import FasterConfig.IptableFaults

/-!
# Commands that are refused

A rule with a port beyond 65535, with a name of an interface that is empty or
longer than fifteen letters, or with a destination that cannot be resolved is
refused, and the run goes on without it. A run whose settings fit does all of
its commands, whatever was refused in the runs before it. The commands are
taken as they reach `iptables`; which texts lead to them is said with the texts.
-/

set_option autoImplicit false

namespace FasterConfig.IptableRefusals
open FasterConfig.NatTable FasterConfig.PacketWalk FasterConfig.Iptable FasterConfig.Application
open FasterConfig.IptablePackets FasterConfig.IptableGate FasterConfig.IptableFaults
open FasterConfig.IptableRestart (Without)

def nameFits (w : String) : Bool := w ≠ "" ∧ w.toList.length ≤ 15

def portFits (n : ℤ) : Bool := 0 ≤ n ∧ n ≤ 65535

section
-- whether a destination can be resolved
variable (resolves : String → Bool)

def destFits (a : String) : Bool := a ≠ "" ∧ resolves a = true

def specFits : Spec → Bool
  | .redirect i d _ dport toPorts =>
    i.all nameFits && d.all (destFits resolves) && portFits dport && portFits toPorts
  | .dnat _ dport _ => portFits dport
  | _ => true

def accepts : FwCommand → Bool
  | .append _ r => specFits resolves r.spec
  | .insert _ r => specFits resolves r.spec
  | _ => true

/-- A run does those of its commands that are not refused. -/
def acceptedRun (t : Firewall) (s : Session) : Firewall :=
  executeAll t ((sessionCommands s).filter (accepts resolves))

def acceptedRuns (t : Firewall) (past : List Session) : Firewall :=
  past.foldl (acceptedRun resolves) t

/-- What is refused is as if it had failed. -/
theorem troubled_accepted (t : Firewall) (past : List Session) :
    Troubled t past (acceptedRuns resolves t past) := by
  induction past generalizing t with
  | nil => exact .start t
  | cons s past ih => exact .run _ List.filter_sublist (ih (acceptedRun resolves t s))

/-- Nothing that the redirection writes is refused. -/
structure Fits (conf : Conf) : Prop where
  apInterface : nameFits conf.apInterface = true
  dnsIP : destFits resolves conf.dnsIP = true
  dnsPort : portFits conf.dnsPort = true
  HttpPort : portFits conf.HttpPort = true

variable {resolves}

theorem Fits.accepted {conf : Conf} (h : Fits resolves conf) (obs : List Bool) :
    ∀ cmd ∈ sessionCommands ⟨conf, obs⟩, accepts resolves cmd = true := by
  intro cmd hc
  have hcreate : createCommands.all (accepts resolves) = true := rfl
  have hdestroy : destroyCommands.all (accepts resolves) = true := rfl
  have hdns (p : Proto) :
      specFits resolves (dnsRedirect conf.apInterface conf.dnsPort p).spec = true := by
    rw [dnsRedirect, specFits, Option.all_some, Option.all_none, h.apInterface, h.dnsPort]
    rfl
  have hhttp : specFits resolves (httpRedirect conf.dnsIP conf.HttpPort).spec = true := by
    rw [httpRedirect, specFits, Option.all_some, Option.all_none, h.dnsIP, h.HttpPort]
    rfl
  rcases mem_runGives hc with hn | hd | hr
  · exact List.all_eq_true.mp hcreate cmd hn
  · exact List.all_eq_true.mp hdestroy cmd hd
  · simp only [redirectCommands, List.mem_cons, List.not_mem_nil, or_false] at hr
    rcases hr with rfl | rfl | rfl | rfl | rfl
    · exact hdns .udp
    · exact hdns .tcp
    · exact h.dnsPort
    · exact h.dnsPort
    · exact hhttp

theorem Fits.run {s : Session} (h : Fits resolves s.conf) (t : Firewall) :
    acceptedRun resolves t s = s.run t := by
  rw [acceptedRun, List.filter_eq_self.mpr (h.accepted s.obs), ← run_commands]

variable (resolves)

section
variable {α ρ : Type*} (k : Kernel α ρ)

/-- A run whose settings fit decides about each packet behind the rules of the administrator, as
what it has seen calls for. -/
theorem packets_decided_iff (t₀ : Firewall) (ht : Without t₀) (past : List Session) (s : Session)
    (hs : Fits resolves s.conf) (h : Hook) (p : Packet α ρ) (e : End Verdict) :
    let t := acceptedRun resolves (acceptedRuns resolves t₀ past) s
    Walks (reading k) t p (t.builtin h.home) e ↔
      ∃ x, Walks (reading k) t₀ p (t₀.builtin h.home) x ∧ e = x.orElse (gateAfter k s p h) := by
  intro t
  have hrun : t = s.run (acceptedRuns resolves t₀ past) := hs.run _
  rw [hrun]
  exact (troubled_accepted resolves t₀ past).fate k ht s h p e

end

end

def numeric (a : String) : Bool := a = "172.31.1.2" ∨ a = "172.31.255.240"

theorem shipped_fits : Fits numeric shipped :=
  ⟨by decide, by decide, by decide, by decide⟩

def overlong : Session := ⟨{ shipped with dnsPort := 70000 }, [true]⟩

theorem tether_query_redirected :
    let t := acceptedRun numeric (acceptedRuns numeric IptableRestart.emptyTable [overlong])
      ⟨shipped, [true, true]⟩
    Walks (reading plainKernel) t tetherQuery (t.builtin Hook.prerouting.home)
      (.verdict (.redirect 2048)) :=
  (packets_decided_iff numeric plainKernel IptableRestart.emptyTable IptableRestart.emptyTable_without
    [overlong] ⟨shipped, [true, true]⟩ shipped_fits .prerouting tetherQuery _).mpr
    ⟨.through, (walks_nil _ _ _ _).mpr rfl, by decide⟩

end FasterConfig.IptableRefusals
