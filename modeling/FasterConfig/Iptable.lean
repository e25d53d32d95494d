import FasterConfig.NatTable
import Mathlib.Data.List.Flatten

/-!
# The firewall rules of the redirector

Each command text becomes a command on the nat table. The constructor of
the class leaves four hooked empty chains on any table; the redirect calls
add one copy of the five rules and the destroy call empties the chains,
because its deletions are refused while the hooks stand.
-/

set_option autoImplicit false

namespace FasterConfig.Iptable
open FasterConfig.NatTable

inductive Proto where
  | udp
  | tcp
  deriving DecidableEq, Repr

/-- Matches and target of the rules the program writes. `all` is a plain jump,
`other` any rule some other program has put in the table. -/
inductive Spec where
  | all
  | redirect (i d : Option String) (p : Proto) (dport toPorts : ℤ)
  | dnat (p : Proto) (dport : ℤ) (dest : String)
  | other (text : String)
  deriving DecidableEq, Repr

abbrev Firewall := Table String Spec
abbrev FwRule := Rule String Spec

def chainOutgoing : String := "fasterconfig_Outgoing"
def chainIncoming : String := "fasterconfig_Incoming"
def chainPrerouting : String := "fasterconfig_prerouter"
def chainPostrouting : String := "fasterconfig_postrouting"

inductive Hook where
  | outgoing
  | prerouting
  | incoming
  | postrouting
  deriving DecidableEq, Repr

def Hook.chain : Hook → String
  | .outgoing => chainOutgoing
  | .prerouting => chainPrerouting
  | .incoming => chainIncoming
  | .postrouting => chainPostrouting

def Hook.home : Hook → Builtin
  | .outgoing => .output
  | .prerouting => .prerouting
  | .incoming => .input
  | .postrouting => .postrouting

theorem chain_injective : Function.Injective Hook.chain := by
  intro a b h
  cases a <;> cases b <;> first | rfl | exact absurd h (by decide)

def jump (c : String) : FwRule := ⟨.all, some c⟩

def iptabelSetNewChain (t : Firewall) : Firewall := executeAll t
  [.new chainOutgoing, .new chainPrerouting, .new chainIncoming, .new chainPostrouting,
   .append (.builtin .output) (jump chainOutgoing),
   .append (.builtin .prerouting) (jump chainPrerouting),
   .append (.builtin .input) (jump chainIncoming),
   .append (.builtin .postrouting) (jump chainPostrouting)]

def iptableDestroyRule (t : Firewall) : Firewall := executeAll t
  [.flush (.user chainOutgoing), .flush (.user chainPrerouting),
   .flush (.user chainIncoming), .flush (.user chainPostrouting),
   .delete chainOutgoing, .delete chainPrerouting,
   .delete chainIncoming, .delete chainPostrouting]

/-- The constructor `Iptable::Iptable`. -/
def newIptable (t : Firewall) : Firewall := iptabelSetNewChain (iptableDestroyRule t)

def dnsRedirect (interface : String) (rePort : ℤ) (p : Proto) : FwRule :=
  ⟨.redirect (some interface) none p 53 rePort, none⟩

def dnsDnat (rePort : ℤ) (p : Proto) : FwRule := ⟨.dnat p rePort "127.0.0.1:53", none⟩

def httpRedirect (destIP : String) (srcPort : ℤ) : FwRule :=
  ⟨.redirect none (some destIP) .tcp 80 srcPort, none⟩

def iptableRedirectDns (t : Firewall) (interface : String) (rePort : ℤ) : Firewall :=
  executeAll t
    [.insert (.user chainPrerouting) (dnsRedirect interface rePort .udp),
     .insert (.user chainPrerouting) (dnsRedirect interface rePort .tcp),
     .append (.user chainOutgoing) (dnsDnat rePort .udp),
     .append (.user chainOutgoing) (dnsDnat rePort .tcp)]

def iptableRedirectHttp (t : Firewall) (destIP _srcIP : String) (srcPort : ℤ) : Firewall :=
  executeAll t [.append (.user chainPrerouting) (httpRedirect destIP srcPort)]

structure Conf where
  dnsPort : ℤ
  dnsIP : String
  HttpPort : ℤ
  gatewayIP : String
  apInterface : String

def redirect (conf : Conf) (t : Firewall) : Firewall :=
  iptableRedirectHttp (iptableRedirectDns t conf.apInterface conf.dnsPort)
    conf.dnsIP conf.gatewayIP conf.HttpPort

abbrev Carries (t : Firewall) (v : Hook → List FwRule) : Prop :=
  NatTable.Hooked Hook.chain Hook.home t v

def redirected (conf : Conf) (n : ℕ) : Hook → List FwRule
  | .outgoing => (List.replicate n [dnsDnat conf.dnsPort .udp, dnsDnat conf.dnsPort .tcp]).flatten
  | .prerouting => (List.replicate n [dnsRedirect conf.apInterface conf.dnsPort .tcp,
      dnsRedirect conf.apInterface conf.dnsPort .udp]).flatten ++
      List.replicate n (httpRedirect conf.dnsIP conf.HttpPort)
  | .incoming => []
  | .postrouting => []

theorem redirected_zero (conf : Conf) : redirected conf 0 = fun _ => [] := by
  funext h
  cases h <;> rfl

/-- On any table at all the constructor ends with four hooked empty chains. -/
theorem new_hooked (t : Firewall) : Carries (newIptable t) (fun _ => []) := by
  have h := setup_hooked Hook.chain Hook.home (fun i => jump i.chain) (fun _ => rfl)
    [.outgoing, .prerouting, .incoming, .postrouting] (fun i => by cases i <;> simp) t
  simpa only [newIptable, iptabelSetNewChain, iptableDestroyRule, setup, executeAll_append,
    List.map_cons, List.map_nil, executeAll_cons, executeAll_nil, Hook.chain, Hook.home] using h

theorem destroy_hooked (t : Firewall) (v : Hook → List FwRule) (h : Carries t v) :
    Carries (iptableDestroyRule t) (fun _ => []) := by
  have hf := (((h.flush chain_injective .outgoing).flush chain_injective .prerouting).flush
    chain_injective .incoming).flush chain_injective .postrouting
  have hv : Function.update (Function.update (Function.update (Function.update v .outgoing [])
      .prerouting []) .incoming []) Hook.postrouting [] = fun _ => [] := by
    funext i
    cases i <;> rfl
  rw [hv] at hf
  -- every deletion is refused: each chain is still hooked
  have ho := hf.delete .outgoing
  have hp := hf.delete .prerouting
  have hi := hf.delete .incoming
  have hq := hf.delete .postrouting
  simp only [Hook.chain] at *
  simp only [iptableDestroyRule, executeAll_cons, executeAll_nil, ho, hp, hi, hq]
  exact hf

theorem redirect_hooked (conf : Conf) (t : Firewall) (v : Hook → List FwRule) (h : Carries t v) :
    Carries (redirect conf t) (fun
      | .outgoing => v .outgoing ++ [dnsDnat conf.dnsPort .udp, dnsDnat conf.dnsPort .tcp]
      | .prerouting => dnsRedirect conf.apInterface conf.dnsPort .tcp::
          dnsRedirect conf.apInterface conf.dnsPort .udp::v .prerouting ++
          [httpRedirect conf.dnsIP conf.HttpPort]
      | i => v i) := by
  have hr := ((((h.insert chain_injective .prerouting
    (dnsRedirect conf.apInterface conf.dnsPort .udp) rfl).insert chain_injective .prerouting
    (dnsRedirect conf.apInterface conf.dnsPort .tcp) rfl).append chain_injective .outgoing
    (dnsDnat conf.dnsPort .udp) rfl).append chain_injective .outgoing
    (dnsDnat conf.dnsPort .tcp) rfl).append chain_injective .prerouting
    (httpRedirect conf.dnsIP conf.HttpPort) rfl
  refine Eq.mp (congrArg _ (funext fun i => ?_)) hr
  cases i <;> simp

theorem redirect_redirected (conf : Conf) (t : Firewall) (n : ℕ)
    (h : Carries t (redirected conf n)) : Carries (redirect conf t) (redirected conf (n+1)) := by
  refine Eq.mp (congrArg _ (funext fun i => ?_)) (redirect_hooked conf t _ h)
  cases i with
  | outgoing => simp [redirected, List.replicate_succ']
  | prerouting =>
    simp only [redirected, List.replicate_succ, List.flatten_cons, List.cons_append,
      List.nil_append, List.append_assoc, List.cons.injEq, true_and, List.append_cancel_left_eq]
    rw [← List.replicate_succ, List.replicate_succ']
  | incoming => rfl
  | postrouting => rfl

/-! ## Counting installed rules -/

def redirectRules (conf : Conf) : List (Hook × FwRule) :=
  [(.prerouting, dnsRedirect conf.apInterface conf.dnsPort .udp),
   (.prerouting, dnsRedirect conf.apInterface conf.dnsPort .tcp),
   (.outgoing, dnsDnat conf.dnsPort .udp),
   (.outgoing, dnsDnat conf.dnsPort .tcp),
   (.prerouting, httpRedirect conf.dnsIP conf.HttpPort)]

def installed (t : Firewall) (p : Hook × FwRule) : ℕ :=
  ((t.rules? (.user p.1.chain)).getD []).count p.2

theorem installed_redirected (conf : Conf) (t : Firewall) (n : ℕ)
    (h : Carries t (redirected conf n)) :
    ∀ p ∈ redirectRules conf, installed t p = n := by
  intro p hp
  have hc := h.contents p.1
  simp only [redirectRules, List.mem_cons, List.not_mem_nil, or_false] at hp
  rcases hp with rfl | rfl | rfl | rfl | rfl <;>
    simp [installed, hc, redirected, List.count_flatten, List.count_replicate,
      dnsRedirect, dnsDnat, httpRedirect]

end FasterConfig.Iptable
