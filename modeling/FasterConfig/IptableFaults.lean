import FasterConfig.IptableGate

/-!
# Commands that fail

The program looks at no result of a command, so any of them may fail without
its notice: no process, no lock on the table, a kill in the middle of a run.
What is then in the table are some of the program's own rules and nothing else,
and the next run that goes well leaves nothing of it.
-/

set_option autoImplicit false

namespace FasterConfig.IptableFaults
open FasterConfig.NatTable FasterConfig.PacketWalk FasterConfig.Iptable FasterConfig.Application
open FasterConfig.IptablePackets FasterConfig.IptableGate
open FasterConfig.IptableRestart (Without)

abbrev FwCommand := Command String Spec

/-! ## The commands of a run -/

def createCommands : List FwCommand :=
  [.new chainOutgoing, .new chainPrerouting, .new chainIncoming, .new chainPostrouting,
   .append (.builtin .output) (jump chainOutgoing),
   .append (.builtin .prerouting) (jump chainPrerouting),
   .append (.builtin .input) (jump chainIncoming),
   .append (.builtin .postrouting) (jump chainPostrouting)]

def destroyCommands : List FwCommand :=
  [.flush (.user chainOutgoing), .flush (.user chainPrerouting),
   .flush (.user chainIncoming), .flush (.user chainPostrouting),
   .delete chainOutgoing, .delete chainPrerouting,
   .delete chainIncoming, .delete chainPostrouting]

def redirectCommands (conf : Conf) : List FwCommand :=
  [.insert (.user chainPrerouting) (dnsRedirect conf.apInterface conf.dnsPort .udp),
   .insert (.user chainPrerouting) (dnsRedirect conf.apInterface conf.dnsPort .tcp),
   .append (.user chainOutgoing) (dnsDnat conf.dnsPort .udp),
   .append (.user chainOutgoing) (dnsDnat conf.dnsPort .tcp),
   .append (.user chainPrerouting) (httpRedirect conf.dnsIP conf.HttpPort)]

structure Flags where
  isRedirected : ℤ
  isDestroied : ℤ

/-- One pass of the loop: its flags, and what it gives out of what there is to destroy the rules and
to redirect. -/
def Flags.pass {β : Type} (destroy redirect : List β) (f : Flags) (locked : Bool) : Flags × List β :=
  let f₁ := if locked then
      if f.isRedirected = 1 then { f with isDestroied := 0 } else f
    else
      if f.isDestroied = 1 then { f with isRedirected := 0 } else f
  let r := if locked = false ∧ f₁.isDestroied ≠ 1 then
      ({ f₁ with isDestroied := 1 }, destroy) else (f₁, [])
  if locked = true ∧ r.1.isRedirected ≠ 1 then
    ({ r.1 with isRedirected := 1 }, r.2 ++ redirect) else r

def loopGives {β : Type} (destroy redirect : List β) : Flags → List Bool → List β
  | _, [] => []
  | f, o::obs => (f.pass destroy redirect o).2 ++ loopGives destroy redirect (f.pass destroy redirect o).1 obs

def runGives {β : Type} (create destroy redirect : List β) (obs : List Bool) : List β :=
  destroy ++ (create ++ loopGives destroy redirect ⟨0, 1⟩ obs)

section
variable {β : Type} {create destroy redirect : List β} {x : β}

theorem mem_pass {f : Flags} {locked : Bool} (h : x ∈ (f.pass destroy redirect locked).2) :
    x ∈ destroy ∨ x ∈ redirect := by
  simp only [Flags.pass] at h
  split_ifs at h
  all_goals first
    | exact List.mem_append.mp h | exact .inl h | exact .inr h | exact absurd h List.not_mem_nil

theorem mem_loopGives {f : Flags} {obs : List Bool} (h : x ∈ loopGives destroy redirect f obs) :
    x ∈ destroy ∨ x ∈ redirect := by
  induction obs generalizing f with
  | nil => exact absurd h List.not_mem_nil
  | cons o obs ih =>
    cases List.mem_append.mp h with
    | inl hp => exact mem_pass hp
    | inr hl => exact ih hl

theorem mem_runGives {obs : List Bool} (h : x ∈ runGives create destroy redirect obs) :
    x ∈ create ∨ x ∈ destroy ∨ x ∈ redirect := by
  rcases List.mem_append.mp h with hd | h
  · exact .inr (.inl hd)
  rcases List.mem_append.mp h with hc | hl
  · exact .inl hc
  · exact .inr (mem_loopGives hl)

end

def sessionCommands (s : Session) : List FwCommand :=
  runGives createCommands destroyCommands (redirectCommands s.conf) s.obs

theorem loopBody_commands (conf : Conf) (f : Flags) (t : Firewall) (locked : Bool) :
    loopBody conf ⟨f.isRedirected, f.isDestroied, t⟩ locked =
      let r := f.pass destroyCommands (redirectCommands conf) locked
      ⟨r.1.isRedirected, r.1.isDestroied, executeAll t r.2⟩ := by
  cases locked with
  | true =>
    simp only [loopBody, Flags.pass, if_true, Bool.true_eq_false, false_and, if_false, true_and]
    split_ifs <;> rfl
  | false =>
    simp only [loopBody, Flags.pass, Bool.false_eq_true, if_false, true_and, false_and]
    split_ifs <;> rfl

theorem runLoop_commands (conf : Conf) (f : Flags) (t : Firewall) (obs : List Bool) :
    (runLoop conf ⟨f.isRedirected, f.isDestroied, t⟩ obs).nat =
      executeAll t (loopGives destroyCommands (redirectCommands conf) f obs) := by
  induction obs generalizing f t with
  | nil => rfl
  | cons o obs ih =>
    rw [loopGives, executeAll_append, ← ih, runLoop, List.foldl_cons, loopBody_commands]
    rfl

theorem run_commands (t : Firewall) (s : Session) : s.run t = executeAll t (sessionCommands s) := by
  have hnew : newIptable t = executeAll (executeAll t destroyCommands) createCommands := rfl
  rw [sessionCommands, runGives, executeAll_append, executeAll_append, ← hnew, ← runLoop_commands]
  rfl

/-! ## What some of them do -/

section
variable (rules : Hook → FwRule → Prop)

/-- The commands of a program that writes only these rules into its chains. -/
inductive Given : FwCommand → Prop where
  | new (h : Hook) : Given (.new h.chain)
  | hook (h : Hook) : Given (.append (.builtin h.home) (jump h.chain))
  | flush (h : Hook) : Given (.flush (.user h.chain))
  | delete (h : Hook) : Given (.delete h.chain)
  | append (h : Hook) (r : FwRule) (hr : rules h r) : Given (.append (.user h.chain) r)
  | insert (h : Hook) (r : FwRule) (hr : rules h r) : Given (.insert (.user h.chain) r)

/-- The table `t₀` with jumps behind the rules of the built-in chains, none of which leads
nowhere, and nothing in the chains of the program but its rules. -/
structure Contained (t₀ t : Firewall) : Prop where
  others : ∀ c, ¬ Own c → t.rules? (.user c) = t₀.rules? (.user c)
  jumps : ∀ h : Hook, ∃ n, t.builtin h.home = t₀.builtin h.home ++ List.replicate n (jump h.chain) ∧
    (n ≠ 0 → Present t h.chain)
  filled : ∀ (h : Hook) rs, t.rules? (.user h.chain) = some rs → ∀ r ∈ rs, rules h r

variable {rules} {t₀ t : Firewall}

theorem Contained.start (ht : Without t₀) : Contained rules t₀ t₀ where
  others _ _ := rfl
  jumps h := ⟨0, by simp, fun hn => absurd rfl hn⟩
  filled h rs hrs := by
    rw [(ht h).1] at hrs
    cases hrs

theorem Given.target {cmd : FwCommand} (hc : Given rules cmd) (c : String) (ho : ¬ Own c) :
    cmd.target ≠ .user c := by
  cases hc with
  | new h => rintro ⟨⟩; exact ho ⟨h, rfl⟩
  | hook h => rintro ⟨⟩
  | flush h => rintro ⟨⟩; exact ho ⟨h, rfl⟩
  | delete h => rintro ⟨⟩; exact ho ⟨h, rfl⟩
  | append h r hr => rintro ⟨⟩; exact ho ⟨h, rfl⟩
  | insert h r hr => rintro ⟨⟩; exact ho ⟨h, rfl⟩

theorem Given.filled {cmd : FwCommand} (hc : Given rules cmd) (hf : Contained rules t₀ t) (h : Hook)
    (rs : List FwRule) (hrs : (execute t cmd).rules? (.user h.chain) = some rs) :
    ∀ r ∈ rs, rules h r := by
  intro r hr
  rcases mem_execute t cmd _ rs hrs r hr with ⟨qs, hqs, hq⟩ | rfl | rfl
  · exact hf.filled h qs hqs r hq
  · generalize hd : Chain.user h.chain = d at hc
    cases hc with
    | hook g => cases hd
    | append g _ hr' =>
      rw [chain_injective (Chain.user.inj hd)]
      exact hr'
  · generalize hd : Chain.user h.chain = d at hc
    cases hc with
    | insert g _ hr' =>
      rw [chain_injective (Chain.user.inj hd)]
      exact hr'

theorem home_injective : Function.Injective Hook.home := by
  intro g h he
  cases g <;> cases h <;> first | rfl | cases he

theorem Given.jumps {cmd : FwCommand} (hc : Given rules cmd) (hf : Contained rules t₀ t) (h : Hook) :
    ∃ n, (execute t cmd).builtin h.home = t₀.builtin h.home ++ List.replicate n (jump h.chain) ∧
      (n ≠ 0 → Present (execute t cmd) h.chain) := by
  obtain ⟨n, hn, hp⟩ := hf.jumps h
  have hkeep (hb : cmd.target ≠ .builtin h.home) (hd : cmd ≠ .delete h.chain) :
      ∃ n, (execute t cmd).builtin h.home = t₀.builtin h.home ++ List.replicate n (jump h.chain) ∧
        (n ≠ 0 → Present (execute t cmd) h.chain) :=
    ⟨n, by rw [builtin_execute t cmd _ hb, hn], fun h0 => present_execute t cmd _ (hp h0) hd⟩
  cases hc with
  | new g => exact hkeep (by simp [Command.target]) (by simp)
  | flush g => exact hkeep (by simp [Command.target]) (by simp)
  | append g r hr => exact hkeep (by simp [Command.target]) (by simp)
  | insert g r hr => exact hkeep (by simp [Command.target]) (by simp)
  | delete g =>
    by_cases hg : g = h
    · subst hg
      refine ⟨n, by rw [builtin_execute t _ _ (by simp [Command.target]), hn], fun h0 => ?_⟩
      have hj : jump g.chain ∈ t.builtin g.home := by
        rw [hn]
        exact List.mem_append_right _ (List.mem_replicate.mpr ⟨h0, rfl⟩)
      rw [execute_delete_referenced t _ (referenced_of_builtin t _ _ _ hj rfl)]
      exact hp h0
    · exact hkeep (by simp [Command.target]) fun hd => hg (chain_injective (Command.delete.inj hd))
  | hook g =>
    by_cases hg : g = h
    · subst hg
      by_cases hpres : Present t g.chain
      · refine ⟨n+1, ?_, fun _ => present_execute t _ _ hpres (by simp)⟩
        rw [builtin_append t _ _ _ _ rfl hpres, if_pos rfl, hn, List.append_assoc, List.replicate_succ']
      · rw [execute_append_absent t _ _ _ rfl hpres]
        exact ⟨n, hn, hp⟩
    · exact hkeep (fun hb => hg (home_injective (Chain.builtin.inj hb))) (by simp)

theorem Contained.execute (hf : Contained rules t₀ t) {cmd : FwCommand} (hc : Given rules cmd) :
    Contained rules t₀ (execute t cmd) where
  others c ho := by rw [execute_other t cmd _ (hc.target c ho).symm, hf.others c ho]
  jumps := hc.jumps hf
  filled := hc.filled hf

theorem Contained.executeAll (hf : Contained rules t₀ t) (cmds : List FwCommand)
    (hc : ∀ cmd ∈ cmds, Given rules cmd) : Contained rules t₀ (executeAll t cmds) := by
  induction cmds generalizing t with
  | nil => exact hf
  | cons cmd cmds ih =>
    exact ih (hf.execute (hc cmd List.mem_cons_self)) fun d hd => hc d (List.mem_cons_of_mem cmd hd)

end

/-! ## Runs in which commands fail -/

def Written (past : List Session) (h : Hook) (r : FwRule) : Prop :=
  ∃ s ∈ past, r ∈ redirected s.conf 1 h

theorem given_destroy (rules : Hook → FwRule → Prop) : ∀ cmd ∈ destroyCommands, Given rules cmd := by
  simp only [destroyCommands, List.forall_mem_cons, List.not_mem_nil, false_implies, implies_true,
    and_true]
  exact ⟨.flush .outgoing, .flush .prerouting, .flush .incoming, .flush .postrouting,
    .delete .outgoing, .delete .prerouting, .delete .incoming, .delete .postrouting⟩

theorem given_create (rules : Hook → FwRule → Prop) : ∀ cmd ∈ createCommands, Given rules cmd := by
  simp only [createCommands, List.forall_mem_cons, List.not_mem_nil, false_implies, implies_true,
    and_true]
  exact ⟨.new .outgoing, .new .prerouting, .new .incoming, .new .postrouting,
    .hook .outgoing, .hook .prerouting, .hook .incoming, .hook .postrouting⟩

theorem given_redirect (past : List Session) (s : Session) (hs : s ∈ past) :
    ∀ cmd ∈ redirectCommands s.conf, Given (Written past) cmd := by
  simp only [redirectCommands, List.forall_mem_cons, List.not_mem_nil, false_implies, implies_true,
    and_true]
  exact ⟨.insert .prerouting _ ⟨s, hs, by simp [redirected]⟩,
    .insert .prerouting _ ⟨s, hs, by simp [redirected]⟩,
    .append .outgoing _ ⟨s, hs, by simp [redirected]⟩,
    .append .outgoing _ ⟨s, hs, by simp [redirected]⟩,
    .append .prerouting _ ⟨s, hs, by simp [redirected]⟩⟩

theorem given_session (past : List Session) (s : Session) (hs : s ∈ past) :
    ∀ cmd ∈ sessionCommands s, Given (Written past) cmd := by
  intro cmd hc
  rcases mem_runGives hc with hn | hd | hr
  · exact given_create _ cmd hn
  · exact given_destroy _ cmd hd
  · exact given_redirect past s hs cmd hr

/-- Runs one after the other; `done` are the commands that did not fail for a reason of their
own. Those of the run that was ended are among them as far as they went. -/
inductive Troubled : Firewall → List Session → Firewall → Prop where
  | start (t : Firewall) : Troubled t [] t
  | run {t t' : Firewall} {s : Session} {past : List Session} (done : List FwCommand)
      (hd : done.Sublist (sessionCommands s)) (h : Troubled (executeAll t done) past t') :
      Troubled t (s::past) t'

theorem Troubled.contained {t₀ t t' : Firewall} {all past : List Session} (h : Troubled t past t')
    (hsub : ∀ s ∈ past, s ∈ all) (hf : Contained (Written all) t₀ t) :
    Contained (Written all) t₀ t' := by
  induction h with
  | start t => exact hf
  | @run t t' s past done hd h ih =>
    apply ih fun r hr => hsub r (List.mem_cons_of_mem s hr)
    apply hf.executeAll
    exact fun cmd hc => given_session all s (hsub s List.mem_cons_self) cmd (hd.subset hc)

theorem Contained.extends {rules : Hook → FwRule → Prop} {t₀ t : Firewall}
    (h : Contained rules t₀ t) : Extends t₀ t where
  others := h.others
  jumps k := (h.jumps k).imp fun _ hn => hn.1

/-! ## What becomes of packets -/

section
variable {α ρ : Type*} (k : Kernel α ρ)

theorem query_rule (conf : Conf) (proto : Proto) (p : Packet α ρ)
    (ha : (reading k).applies (dnsRedirect conf.apInterface conf.dnsPort proto).spec p = true) :
    gate k conf true p .prerouting = .verdict (.redirect conf.dnsPort) := by
  simp only [reading, dnsRedirect, Option.all_some, Option.all_none, Bool.and_true, Bool.and_eq_true,
    decide_eq_true_eq] at ha
  obtain ⟨hi, hproto, hport⟩ := ha
  have hq : IsQuery conf p := ⟨hi, by rw [hproto]; rfl, by omega⟩
  rw [gate, if_pos ⟨rfl, hq⟩]

theorem visit_rule (conf : Conf) (p : Packet α ρ)
    (ha : (reading k).applies (httpRedirect conf.dnsIP conf.HttpPort).spec p = true) :
    gate k conf true p .prerouting = .verdict (.redirect conf.HttpPort) := by
  simp only [reading, httpRedirect, Option.all_some, Option.all_none, Bool.true_and, Bool.and_eq_true,
    decide_eq_true_eq] at ha
  obtain ⟨hd, hproto, hport⟩ := ha
  have hv : IsVisit k conf p := ⟨hd, hproto, by omega⟩
  have hq : ¬ IsQuery conf p := fun hq => by
    have h53 := hq.2.2
    omega
  rw [gate, if_neg fun h => hq h.2, if_pos ⟨rfl, hv⟩]

theorem dnat_rule (conf : Conf) (proto : Proto) (p : Packet α ρ)
    (ha : (reading k).applies (dnsDnat conf.dnsPort proto).spec p = true) :
    gate k conf true p .outgoing = .verdict (.dnat "127.0.0.1:53") := by
  simp only [reading, dnsDnat, decide_eq_true_eq] at ha
  rw [gate, if_pos ⟨rfl, by rw [ha.1]; rfl, ha.2⟩]

theorem rule_gate (conf : Conf) (h : Hook) (r : FwRule) (hr : r ∈ redirected conf 1 h) (p : Packet α ρ)
    (ha : (reading k).applies r.spec p = true) :
    (reading k).target r.spec = gate k conf true p h ∧ gate k conf true p h ≠ .through := by
  cases h with
  | outgoing =>
    simp only [redirected, List.replicate_one, List.flatten_singleton, List.mem_pair] at hr
    rcases hr with rfl | rfl
    · rw [dnat_rule k conf .udp p ha]
      exact ⟨rfl, by simp⟩
    · rw [dnat_rule k conf .tcp p ha]
      exact ⟨rfl, by simp⟩
  | prerouting =>
    simp only [redirected, List.replicate_one, List.flatten_singleton, List.mem_append, List.mem_pair,
      List.mem_singleton] at hr
    rcases hr with (rfl | rfl) | rfl
    · rw [query_rule k conf .tcp p ha]
      exact ⟨rfl, by simp⟩
    · rw [query_rule k conf .udp p ha]
      exact ⟨rfl, by simp⟩
    · rw [visit_rule k conf p ha]
      exact ⟨rfl, by simp⟩
  | incoming => cases hr
  | postrouting => cases hr

theorem settle_written (past : List Session) (h : Hook) (p : Packet α ρ) (rs : List FwRule)
    (hrs : ∀ r ∈ rs, Written past h r) :
    settle (reading k) p rs = .through ∨ ∃ s ∈ past, settle (reading k) p rs = gate k s.conf true p h := by
  induction rs with
  | nil => exact .inl rfl
  | cons r rs ih =>
    rw [settle]
    by_cases ha : (reading k).applies r.spec p = true
    · obtain ⟨s, hs, hr⟩ := hrs r List.mem_cons_self
      obtain ⟨htarget, hne⟩ := rule_gate k s.conf h r hr p ha
      rw [if_pos ha, htarget, orElse_of_ne _ _ hne]
      exact .inr ⟨s, hs, rfl⟩
    · rw [if_neg ha, through_orElse]
      exact ih fun q hq => hrs q (List.mem_cons_of_mem r hq)

theorem written_plain {past : List Session} {h : Hook} {r : FwRule} (hr : Written past h r) :
    r.jump = none := by
  obtain ⟨s, -, hm⟩ := hr
  exact redirected_plain s.conf 1 h r hm

theorem jumps_gate {past : List Session} {t₀ t : Firewall} (hf : Contained (Written past) t₀ t) (h : Hook)
    (p : Packet α ρ) (n : ℕ) (hp : n ≠ 0 → Present t h.chain) :
    ∃ y, (y = .through ∨ ∃ s ∈ past, y = gate k s.conf true p h) ∧
      ∀ e, Walks (reading k) t p (List.replicate n (jump h.chain)) e ↔ e = y := by
  cases n with
  | zero => exact ⟨.through, .inl rfl, walks_nil (reading k) t p⟩
  | succ n =>
    obtain ⟨rs, hrs⟩ := Option.isSome_iff_exists.mp (hp (Nat.succ_ne_zero n))
    have hfilled := hf.filled h rs hrs
    refine ⟨(settle (reading k) p rs).returned, ?_, walks_jumps (reading k) t p (jump h.chain) h.chain rs
      rfl rfl hrs (fun r hr => written_plain (hfilled r hr)) n⟩
    rcases settle_written k past h p rs hfilled with hs | ⟨s, hs, hg⟩
    · rw [hs]
      exact .inl rfl
    · rw [hg, gate_returned]
      exact .inr ⟨s, hs, rfl⟩

/-- Behind the rules of the administrator stands at most what one of the runs was to do. -/
theorem Contained.fate {past : List Session} {t₀ t : Firewall} (hf : Contained (Written past) t₀ t)
    (ht : Without t₀) (h : Hook) (p : Packet α ρ) :
    ∃ y, (y = .through ∨ ∃ s ∈ past, y = gate k s.conf true p h) ∧
      ∀ e, Walks (reading k) t p (t.builtin h.home) e ↔
        ∃ x, Walks (reading k) t₀ p (t₀.builtin h.home) x ∧ e = x.orElse y := by
  obtain ⟨n, hn, hp⟩ := hf.jumps h
  obtain ⟨y, hy, hwalk⟩ := jumps_gate k hf h p n hp
  have hold : ∀ x, Walks (reading k) t p (t₀.builtin h.home) x ↔
      Walks (reading k) t₀ p (t₀.builtin h.home) x :=
    walks_congr (reading k) t₀ p t Own hf.others (fun c _ cs hc => without_avoids t₀ ht c cs hc) _
      (without_builtin t₀ ht h.home)
  refine ⟨y, hy, fun e => ?_⟩
  rw [hn, walks_append, follows_congr _ _ _ _ hold hwalk, follows_eq_iff]

theorem Troubled.fate {past : List Session} {t₀ t : Firewall} (hpast : Troubled t₀ past t)
    (ht : Without t₀) (s : Session) (h : Hook) (p : Packet α ρ) (e : End Verdict) :
    Walks (reading k) (s.run t) p ((s.run t).builtin h.home) e ↔
      ∃ x, Walks (reading k) t₀ p (t₀.builtin h.home) x ∧ e = x.orElse (gateAfter k s p h) := by
  have hf : Contained (Written past) t₀ t := hpast.contained (fun _ hs => hs) (.start ht)
  rw [gateAfter, ← up_eq]
  exact fate_extended k t₀ ht t hf.extends s h p e

/-- Whatever fails in however many runs, a packet meets the rules of the administrator, and behind them
at most what one of these runs was to do with it. A run in which nothing fails makes up for them all. -/
theorem faults_contained (t₀ : Firewall) (ht : Without t₀) (past : List Session) (t : Firewall)
    (hpast : Troubled t₀ past t) (h : Hook) (p : Packet α ρ) :
    (∃ y, (y = .through ∨ ∃ s ∈ past, y = gate k s.conf true p h) ∧
      ∀ e, Walks (reading k) t p (t.builtin h.home) e ↔
        ∃ x, Walks (reading k) t₀ p (t₀.builtin h.home) x ∧ e = x.orElse y) ∧
    ∀ s e, Walks (reading k) (s.run t) p ((s.run t).builtin h.home) e ↔
      ∃ x, Walks (reading k) t₀ p (t₀.builtin h.home) x ∧ e = x.orElse (gateAfter k s p h) :=
  ⟨(hpast.contained (fun _ hs => hs) (.start ht)).fate k ht h p,
    fun s e => hpast.fate k ht s h p e⟩

end

def killedRun : Session := ⟨shipped, [true]⟩

def killed : Firewall := executeAll IptableRestart.emptyTable ((sessionCommands killedRun).take 17)

example : ((sessionCommands killedRun).take 17).getLast? =
    some (.insert (.user chainPrerouting) (dnsRedirect "tether" 2048 .udp)) := rfl

/-- The next run finds the gateway unlocked and leaves nothing of that rule. -/
theorem killed_run_contained :
    (∃ y, (y = .through ∨ ∃ s ∈ [killedRun], y = gate plainKernel s.conf true tetherQuery .prerouting) ∧
      ∀ e, Walks (reading plainKernel) killed tetherQuery (killed.builtin Hook.prerouting.home) e ↔
        ∃ x, Walks (reading plainKernel) IptableRestart.emptyTable tetherQuery [] x ∧ e = x.orElse y) ∧
    Walks (reading plainKernel) (Session.run killed ⟨shipped, [false]⟩) tetherQuery
      ((Session.run killed ⟨shipped, [false]⟩).builtin Hook.prerouting.home) .through := by
  have hkilled : Troubled IptableRestart.emptyTable [killedRun] killed :=
    .run _ (List.take_sublist 17 _) (.start _)
  obtain ⟨hnow, hnext⟩ := faults_contained plainKernel IptableRestart.emptyTable
    IptableRestart.emptyTable_without [killedRun] killed hkilled .prerouting tetherQuery
  exact ⟨hnow, (hnext ⟨shipped, [false]⟩ .through).mpr ⟨.through, (walks_nil _ _ _ _).mpr rfl, by decide⟩⟩

end FasterConfig.IptableFaults
