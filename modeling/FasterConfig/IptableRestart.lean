import FasterConfig.Iptable

/-!
# Restarts

Every start of the program runs the constructor on the table the last one has
left. The chains come out empty each time, but none of them can be deleted
while its jump stands, and the jumps are appended again.
-/

set_option autoImplicit false

namespace FasterConfig.IptableRestart
open FasterConfig.NatTable FasterConfig.Iptable

inductive Call where
  | redirectDns (interface : String) (rePort : ℤ)
  | redirectHttp (destIP srcIP : String) (srcPort : ℤ)
  deriving DecidableEq, Repr

def Call.run : Call → Firewall → Firewall
  | .redirectDns interface rePort, t => iptableRedirectDns t interface rePort
  | .redirectHttp destIP srcIP srcPort, t => iptableRedirectHttp t destIP srcIP srcPort

/-- The calls of one run of the program, then its next start. -/
def restart (t : Firewall) (calls : List Call) : Firewall :=
  newIptable (calls.foldl (fun t call => call.run t) t)

/-- The first start, then one restart for each list of calls. -/
def starts (t : Firewall) (history : List (List Call)) : Firewall :=
  history.foldl restart (newIptable t)

theorem new_builtin (t : Firewall) (h : Hook) :
    (newIptable t).builtin h.home = t.builtin h.home ++ [jump h.chain] := by
  have hs := setup_builtin Hook.chain Hook.home (fun i => jump i.chain) (fun _ => rfl)
    [.outgoing, .prerouting, .incoming, .postrouting] (fun i => by cases i <;> simp) t h.home
  have hf : ([.outgoing, .prerouting, .incoming, .postrouting] : List Hook).filter
      (fun i => i.home = h.home) = [h] := by
    cases h <;> rfl
  rw [hf] at hs
  simpa only [newIptable, iptabelSetNewChain, iptableDestroyRule, setup, executeAll_append,
    List.map_cons, List.map_nil, executeAll_cons, executeAll_nil, Hook.chain, Hook.home] using hs

theorem call_builtin (call : Call) (t : Firewall) (b : Builtin) :
    (call.run t).builtin b = t.builtin b := by
  cases call with
  | redirectDns interface rePort =>
    apply builtin_executeAll
    simp [Command.target]
  | redirectHttp destIP srcIP srcPort =>
    apply builtin_executeAll
    simp [Command.target]

theorem calls_builtin (calls : List Call) (t : Firewall) (b : Builtin) :
    (calls.foldl (fun t call => call.run t) t).builtin b = t.builtin b := by
  induction calls generalizing t with
  | nil => rfl
  | cons call calls ih => rw [List.foldl_cons, ih, call_builtin]

theorem restart_builtin (t : Firewall) (calls : List Call) (h : Hook) :
    (restart t calls).builtin h.home = t.builtin h.home ++ [jump h.chain] := by
  rw [restart, new_builtin, calls_builtin]

theorem starts_builtin (t : Firewall) (history : List (List Call)) (h : Hook) :
    (starts t history).builtin h.home =
      t.builtin h.home ++ List.replicate (history.length+1) (jump h.chain) := by
  have hr : ∀ (u : Firewall), (history.foldl restart u).builtin h.home =
      u.builtin h.home ++ List.replicate history.length (jump h.chain) := by
    induction history with
    | nil => simp
    | cons calls history ih =>
      intro u
      rw [List.foldl_cons, ih, restart_builtin, List.append_assoc, List.length_cons,
        List.replicate_succ]
      rfl
  rw [starts, hr, new_builtin, List.append_assoc, List.replicate_succ]
  rfl

theorem restart_hooked (t : Firewall) (calls : List Call) :
    Carries (restart t calls) (fun _ => []) := by
  rw [restart]
  apply new_hooked

theorem starts_hooked (t : Firewall) (history : List (List Call)) :
    Carries (starts t history) (fun _ => []) := by
  have hr : ∀ u : Firewall, Carries u (fun _ => []) →
      Carries (history.foldl restart u) (fun _ => []) := by
    induction history with
    | nil => exact fun u hu => hu
    | cons calls history ih =>
      intro u _
      rw [List.foldl_cons]
      exact ih _ (restart_hooked u calls)
  exact hr _ (new_hooked t)

/-! ## As after one start -/

def Without (t : Firewall) : Prop :=
  ∀ h : Hook, t.rules? (.user h.chain) = none ∧ t.referenced h.chain = false

structure AsOnce (t t' : Firewall) : Prop where
  same : ∀ c, t'.rules? c = (newIptable t).rules? c
  chains : ∀ h : Hook, t'.rules? (.user h.chain) = some []
  jumps : ∀ h : Hook, (t'.builtin h.home).countP (Rule.jumpsTo h.chain) = 1

theorem count_initial (t : Firewall) (ht : Without t) (h : Hook) :
    (t.builtin h.home).countP (Rule.jumpsTo h.chain) = 0 := by
  rw [List.countP_eq_zero]
  intro r hr hj
  have hm := referenced_of_builtin t h.chain h.home r hr (by simpa [Rule.jumpsTo] using hj)
  rw [(ht h).2] at hm
  exact absurd hm (by decide)

theorem count_starts (t : Firewall) (ht : Without t) (history : List (List Call)) (h : Hook) :
    ((starts t history).builtin h.home).countP (Rule.jumpsTo h.chain) = history.length+1 := by
  have hj : Rule.jumpsTo h.chain (jump h.chain) = true := decide_eq_true rfl
  rw [starts_builtin, List.countP_append, count_initial t ht h, List.countP_replicate, if_pos hj,
    Nat.zero_add]

/-- Any number of starts but one leaves another table. -/
theorem starts_as_once_iff (t : Firewall) (ht : Without t) (history : List (List Call)) :
    AsOnce t (starts t history) ↔ history.length+1 = 1 := by
  constructor
  · intro h
    rw [← count_starts t ht history .outgoing]
    exact h.jumps .outgoing
  · intro h
    obtain rfl := List.eq_nil_of_length_eq_zero (Nat.succ.inj h)
    refine ⟨fun c => ?_, (starts_hooked t []).contents, count_starts t ht []⟩
    rw [starts, List.foldl_nil]

def emptyTable : Firewall := ⟨fun _ => [], ∅⟩

theorem emptyTable_without : Without emptyTable := by
  intro h
  cases h <;> exact ⟨rfl, rfl⟩

def officeTable : Firewall where
  builtin
    | .output => [jump "office"]
    | .postrouting => [⟨.other "-o wan0 -j MASQUERADE", none⟩]
    | _ => []
  user := AList.singleton "office" [⟨.other "-d 10.0.0.0/8 -j RETURN", none⟩]

theorem officeTable_without : Without officeTable := by
  intro h
  cases h <;> exact ⟨rfl, rfl⟩

theorem first_start_as_once : AsOnce officeTable (starts officeTable []) ∧
    ¬ AsOnce officeTable (starts officeTable [[.redirectDns "tether" 2048], []]) := by
  refine ⟨(starts_as_once_iff officeTable officeTable_without []).mpr rfl, fun h => ?_⟩
  have hn := (starts_as_once_iff officeTable officeTable_without _).mp h
  exact absurd hn (by decide)

theorem second_start_doubles_jumps : Without emptyTable ∧
    (starts emptyTable [[]]).builtin Hook.outgoing.home =
      [jump Hook.outgoing.chain, jump Hook.outgoing.chain] ∧
      ¬ AsOnce emptyTable (starts emptyTable [[]]) := by
  refine ⟨emptyTable_without, starts_builtin emptyTable [[]] .outgoing, fun h => ?_⟩
  have hc := count_starts emptyTable emptyTable_without [[]] .outgoing
  rw [h.jumps .outgoing] at hc
  exact absurd hc (by simp)

end FasterConfig.IptableRestart
