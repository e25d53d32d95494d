import FasterConfig.Descriptors
import FasterConfig.DottedQuad
import FasterConfig.HttpdAcl
import FasterConfig.HttpdThread
import FasterConfig.Runs

/-!
# Connections of the web server

The loop of the server accepts, checks the access list and starts a thread for
each connection; threads write and end in any order, and descriptors and
addresses of requests are given out again. What a write does not get rid of is
lost, since its result is not looked at. In every interleaving a connection
gets what its own request asks for, less what has been lost, and nothing else.
A connection for which no thread could be started stays open.

What a thread sends is settled when its request has been read. The threads
share the place of `strtok`, which none of them reads; the buffer of `gmtime`,
so that the date may be any; and the table of the base64 decoder, which is taken
to be filled before a second thread looks at it. A thread that writes behind an
array has no step.
-/

set_option autoImplicit false

namespace FasterConfig.HttpdConnections
open FasterConfig.Strings FasterConfig.Descriptors FasterConfig.DottedQuad FasterConfig.HttpdAcl
open FasterConfig.DnsServer (InAddr)
open FasterConfig.HttpdResponse (Environment Inline Request Server newline send403)
open FasterConfig.HttpdThread (Peer threadHttpd)
open FasterConfig.Runs (run_keeps)

variable {H : Type*}

def httpIpAddrLen : ℕ := 17

structure Config (H : Type*) where
  server : Server H
  calls : List Call

structure Client where
  sinAddr : InAddr
  env : Environment
  peer : Peer

def clientAddr (sinAddr : InAddr) : Inline :=
  ⟨strncpy (dotted sinAddr) httpIpAddrLen,
    fun h => newline_not_mem_quad (quad sinAddr) (List.mem_of_mem_take h)⟩

/-- A request that is allocated; `left` is what its thread has not written yet. -/
structure Pending where
  clientSock : Option Socket
  left : Text
  running : Bool

/-- `accepted` are the connections so far, with whether `pthread_create` works for them. -/
structure State where
  lastError : ℤ
  process : Process UInt8
  heap : ℕ → Option Pending
  accepted : List (Client × Bool)

/-! ## The loop and its threads -/

/-- Without a socket it is -1 that is written to and closed. -/
def State.clientSock (s : State) (ptr : ℕ) : Option Socket := (s.heap ptr).bind Pending.clientSock

/-- The result of `write` is not looked at. -/
def netWrite (ptr : ℕ) (buf taken : Text) (s : State) : State :=
  { s with process := (s.clientSock ptr).elim s.process fun k => s.process.write k.fd buf taken }

def httpdEndRequest (ptr : ℕ) (s : State) : State :=
  { s with
    process := (s.clientSock ptr).elim s.process fun k => s.process.close k.fd
    heap := Function.update s.heap ptr none }

def setLastError (e : ℤ) (s : State) : State := { s with lastError := e }

/-- What `select`, `malloc` and `accept` come to; `taken` is what goes out of a denial. -/
inductive Incoming where
  | selectFails
  | noMemory
  | acceptFails (env : Environment)
  | accepts (fd : ℕ) (client : Client) (taken : Text)

def checkDefaultAcl (cfg : Config H) (env : Environment) (sinAddr : InAddr) (ptr : ℕ) (taken : Text)
    (s : State) : Option ℕ × State :=
  let r := Request.zeroed (clientAddr sinAddr)
  let defaultAcl := addCalls cfg.calls
  let (action, r) :=
    if defaultAcl = [] then (httpAclPermit, r) else httpdCheckAcl env cfg.server r defaultAcl
  if action = httpAclDeny then
    (none, setLastError 2 (httpdEndRequest ptr (netWrite ptr r.sent taken s)))
  else (some ptr, s)

def httpdGetConnection (cfg : Config H) (ptr : ℕ) (created : Bool) (s : State) :
    Incoming → Option ℕ × State
  | .selectFails => (none, setLastError (-1) s)
  | .noMemory => (none, setLastError (-3) s)
  | .acceptFails env =>
    checkDefaultAcl cfg env ⟨0, 0, 0, 0⟩ ptr []
      { s with lastError := 0, heap := Function.update s.heap ptr (some ⟨none, [], false⟩) }
  | .accepts fd client taken =>
    let r := threadHttpd client.env cfg.server client.peer (.zeroed (clientAddr client.sinAddr))
    checkDefaultAcl cfg client.env client.sinAddr ptr taken
      { lastError := 0
        process := s.process.openConnection fd
        heap := Function.update s.heap ptr (some ⟨some ⟨fd, s.process.opened⟩, r.sent, false⟩)
        accepted := s.accepted ++ [(client, created)] }

def createThread (created : Bool) (ptr : ℕ) (s : State) : State :=
  { s with heap := Function.update s.heap ptr ((s.heap ptr).map fun r => { r with running := created }) }

def setLeft (ptr : ℕ) (left : Text) (s : State) : State :=
  { s with heap := Function.update s.heap ptr ((s.heap ptr).map fun r => { r with left := left }) }

def pass (cfg : Config H) (ptr : ℕ) (created : Bool) (s : State) (i : Incoming) : State :=
  let (r, s) := httpdGetConnection cfg ptr created s i
  if s.lastError = -1 then r.elim s fun r => httpdEndRequest r s
  else if s.lastError < -1 then s
  else r.elim s fun r => createThread created r s

/-! ## What a client should get -/

def Refused (cfg : Config H) (sinAddr : InAddr) : Prop :=
  rules cfg.calls ≠ [] ∧ decision cfg.calls (quad sinAddr) = .deny

instance (cfg : Config H) : DecidablePred (Refused cfg) := fun _ => inferInstanceAs (Decidable (_ ∧ _))

def denied (cfg : Config H) (env : Environment) (sinAddr : InAddr) : Request :=
  send403 env cfg.server (.zeroed (clientAddr sinAddr))

/-- The loop answers who is refused, and a thread the others. -/
def answered (cfg : Config H) (c : Client) : Request :=
  if Refused cfg c.sinAddr then denied cfg c.env c.sinAddr
  else threadHttpd c.env cfg.server c.peer (.zeroed (clientAddr c.sinAddr))

def reply (cfg : Config H) (c : Client) : Text := (answered cfg c).sent

/-! ## Steps -/

/-- Files are opened and closed by whoever runs in the process; a write of `n` octets may be
cut to `taken`. -/
inductive Event where
  | pass (ptr : ℕ) (i : Incoming) (created : Bool)
  | write (ptr n taken : ℕ)
  | finish (ptr : ℕ)
  | openFile (fd : ℕ)
  | closeFile (fd : ℕ)

/-- `malloc` and the kernel give out what is free, and what runs keeps to its arrays. -/
def Incoming.Possible (cfg : Config H) (s : State) (ptr : ℕ) (created : Bool) : Incoming → Prop
  | .selectFails => True
  | .noMemory => True
  | .acceptFails env =>
    s.heap ptr = none ∧ (Refused cfg ⟨0, 0, 0, 0⟩ → (denied cfg env ⟨0, 0, 0, 0⟩).overrun = false)
  | .accepts fd c taken =>
    s.heap ptr = none ∧ s.process.table fd = none ∧
      (Refused cfg c.sinAddr ∨ created = true → (answered cfg c).overrun = false) ∧
      (Refused cfg c.sinAddr → taken.Sublist (reply cfg c))

instance (cfg : Config H) (s : State) (ptr : ℕ) (created : Bool) :
    DecidablePred (Incoming.Possible cfg s ptr created)
  | .selectFails => inferInstanceAs (Decidable True)
  | .noMemory => inferInstanceAs (Decidable True)
  | .acceptFails _ => inferInstanceAs (Decidable (_ ∧ _))
  | .accepts _ _ _ => inferInstanceAs (Decidable (_ ∧ _))

def step (cfg : Config H) (s : State) : Event → Option State
  | .pass ptr i created =>
    if i.Possible cfg s ptr created then some (pass cfg ptr created s i) else none
  | .write ptr n taken =>
    match s.heap ptr with
    | some r =>
      if r.running ∧ n ≤ r.left.length then
        some (setLeft ptr (r.left.drop n) (netWrite ptr (r.left.take n) ((r.left.take n).take taken) s))
      else none
    | none => none
  | .finish ptr =>
    match s.heap ptr with
    | some r => if r.running ∧ r.left = [] then some (httpdEndRequest ptr s) else none
    | none => none
  | .openFile fd =>
    if s.process.table fd = none then some { s with process := s.process.openFile fd } else none
  | .closeFile fd =>
    if s.process.table fd = some .file then some { s with process := s.process.closeFile fd }
    else none

def started (files : ℕ → Bool) : State := ⟨0, idle files, fun _ => none, []⟩

def run (cfg : Config H) (s : State) (events : List Event) : Option State := events.foldlM (step cfg) s

/-! ## The check in the loop -/

theorem clientAddr_text (sinAddr : InAddr) : (clientAddr sinAddr).val = dotted sinAddr :=
  strncpy_short _ _ (Nat.lt_of_le_of_lt (length_dotted sinAddr) (by decide))

theorem addCalls_nil (calls : List Call) : addCalls calls = [] ↔ rules calls = [] := by
  rw [addCalls_eq, List.map_eq_nil_iff]

theorem checkDefaultAcl_eq (cfg : Config H) (env : Environment) (sinAddr : InAddr) (ptr : ℕ)
    (taken : Text) (s : State) :
    checkDefaultAcl cfg env sinAddr ptr taken s =
      if Refused cfg sinAddr then
        (none, setLastError 2
          (httpdEndRequest ptr (netWrite ptr (denied cfg env sinAddr).sent taken s)))
      else (some ptr, s) := by
  have haction : checkLoop (quad sinAddr).addr (32 : BitVec 32).toInt (addCalls cfg.calls) =
      (decision cfg.calls (quad sinAddr)).code := by
    rw [addCalls_eq, decision]
    exact checkLoop_rules (rules cfg.calls) (quad sinAddr)
  have hscan : Cidr.scanCidr (Request.zeroed (clientAddr sinAddr)).clientAddr =
      some ((quad sinAddr).addr, 32) := by
    rw [quad_addr, ← scanCidr_dotted, ← clientAddr_text]
    rfl
  rw [checkDefaultAcl]
  by_cases hn : rules cfg.calls = []
  · rw [if_neg fun h : Refused cfg sinAddr => h.1 hn]
    simp only [(addCalls_nil cfg.calls).mpr hn, if_true]
    rfl
  · simp only [if_neg (mt (addCalls_nil cfg.calls).mp hn), httpdCheckAcl, hscan, haction, Refused,
      ne_eq, hn, not_false_eq_true, true_and]
    cases decision cfg.calls (quad sinAddr) <;> rfl

/-! ## What a pass does -/

theorem pass_eq (cfg : Config H) (ptr : ℕ) (created : Bool) (s : State) (i : Incoming) :
    pass cfg ptr created s i = match i with
      | .selectFails => { s with lastError := -1 }
      | .noMemory => { s with lastError := -3 }
      | .acceptFails _ =>
        if Refused cfg ⟨0, 0, 0, 0⟩ then
          { s with lastError := 2, heap := Function.update s.heap ptr none }
        else
          { s with
            lastError := 0
            heap := Function.update s.heap ptr (some ⟨none, [], created⟩) }
      | .accepts fd c taken =>
        if Refused cfg c.sinAddr then
          { lastError := 2
            process := ((s.process.openConnection fd).write fd (reply cfg c) taken).close fd
            heap := Function.update s.heap ptr none
            accepted := s.accepted ++ [(c, created)] }
        else
          { lastError := 0
            process := s.process.openConnection fd
            heap := Function.update s.heap ptr
              (some ⟨some ⟨fd, s.process.opened⟩, reply cfg c, created⟩)
            accepted := s.accepted ++ [(c, created)] } := by
  cases i with
  | selectFails => rfl
  | noMemory => rfl
  | acceptFails env =>
    simp only [pass, httpdGetConnection, checkDefaultAcl_eq]
    by_cases hr : Refused cfg ⟨0, 0, 0, 0⟩
    · simp [hr, setLastError, httpdEndRequest, netWrite, State.clientSock]
    · simp [hr, createThread]
  | accepts fd c taken =>
    simp only [pass, httpdGetConnection, checkDefaultAcl_eq, reply, answered]
    by_cases hr : Refused cfg c.sinAddr
    · simp [hr, setLastError, httpdEndRequest, netWrite, State.clientSock]
    · simp [hr, createThread]

theorem step_cases (cfg : Config H) (s : State) (e : Event) (s' : State)
    (hs : step cfg s e = some s') : match e with
      | .pass ptr i created => i.Possible cfg s ptr created ∧ s' = pass cfg ptr created s i
      | .write ptr n taken => ∃ r, s.heap ptr = some r ∧ r.running = true ∧
          s' = setLeft ptr (r.left.drop n)
            (netWrite ptr (r.left.take n) ((r.left.take n).take taken) s)
      | .finish ptr => ∃ r, s.heap ptr = some r ∧ r.running = true ∧ r.left = [] ∧
          s' = httpdEndRequest ptr s
      | .openFile fd => s.process.table fd = none ∧
          s' = { s with process := s.process.openFile fd }
      | .closeFile fd => s.process.table fd = some .file ∧
          s' = { s with process := s.process.closeFile fd } := by
  cases e with
  | pass ptr i created =>
    obtain ⟨hfree, hs⟩ := Option.ite_none_right_eq_some.mp hs
    exact ⟨hfree, (Option.some.inj hs).symm⟩
  | write ptr n taken =>
    simp only [step] at hs
    cases hr : s.heap ptr with
    | none => simp [hr] at hs
    | some r =>
      simp only [hr] at hs
      obtain ⟨⟨hrun, -⟩, hs⟩ := Option.ite_none_right_eq_some.mp hs
      exact ⟨r, hr, hrun, (Option.some.inj hs).symm⟩
  | finish ptr =>
    simp only [step] at hs
    cases hr : s.heap ptr with
    | none => simp [hr] at hs
    | some r =>
      simp only [hr] at hs
      obtain ⟨⟨hrun, hleft⟩, hs⟩ := Option.ite_none_right_eq_some.mp hs
      exact ⟨r, hr, hrun, hleft, (Option.some.inj hs).symm⟩
  | openFile fd =>
    obtain ⟨hfree, hs⟩ := Option.ite_none_right_eq_some.mp hs
    exact ⟨hfree, (Option.some.inj hs).symm⟩
  | closeFile fd =>
    obtain ⟨hfile, hs⟩ := Option.ite_none_right_eq_some.mp hs
    exact ⟨hfile, (Option.some.inj hs).symm⟩

/-! ## The invariant -/

/-- What has arrived and what is left are the reply, less what has been lost; without a thread
nothing is written. -/
structure Good (cfg : Config H) (s : State) : Prop where
  owned : Owned s.process s.clientSock
  opened : s.process.opened = s.accepted.length
  pending : ∀ ptr r k, s.heap ptr = some r → r.clientSock = some k →
    ∃ c, s.accepted[k.connection]? = some (c, r.running) ∧ ¬ Refused cfg c.sinAddr ∧
      Arrived (reply cfg c) (s.process.output k.connection ++ r.left) (s.process.lost k.connection) ∧
      (r.running = false → s.process.output k.connection = [])
  answered : ∀ n c b, s.accepted[n]? = some (c, b) → s.process.closes n = 1 →
    Arrived (reply cfg c) (s.process.output n) (s.process.lost n) ∧ (b = false → Refused cfg c.sinAddr)

theorem good_started (cfg : Config H) (files : ℕ → Bool) : Good cfg (started files) where
  owned := owned_idle files
  opened := rfl
  pending _ _ _ h := by cases h
  answered _ _ _ h := by cases h

theorem clientSock_update (s : State) (ptr : ℕ) (r : Option Pending) :
    State.clientSock { s with heap := Function.update s.heap ptr r } =
      Function.update s.clientSock ptr (r.bind Pending.clientSock) := by
  funext q
  by_cases hq : q = ptr
  · simp [State.clientSock, hq]
  · simp [State.clientSock, hq]

section
variable {cfg : Config H} {s : State}

theorem Good.withoutSocket (h : Good cfg s) (ptr : ℕ) (r : Option Pending) (e : ℤ)
    (hs : s.clientSock ptr = none) (hr : r.bind Pending.clientSock = none) :
    Good cfg { s with lastError := e, heap := Function.update s.heap ptr r } where
  owned := by
    have hsame : Function.update s.clientSock ptr none = s.clientSock := by
      rw [← hs]
      exact Function.update_eq_self ptr s.clientSock
    have hsock := clientSock_update s ptr r
    rw [hr, hsame] at hsock
    exact hsock ▸ h.owned
  opened := h.opened
  pending q r' k hq hk := by
    by_cases he : q = ptr
    · simp only [he, Function.update_self] at hq
      rw [hq, Option.bind_some, hk] at hr
      cases hr
    · simp only [Function.update_of_ne he] at hq
      exact h.pending q r' k hq hk
  answered := h.answered

theorem clientSock_free (ptr : ℕ) (h : s.heap ptr = none) : s.clientSock ptr = none := by
  rw [State.clientSock, h]
  rfl

theorem Good.pending_known (h : Good cfg s) (ptr : ℕ) (r : Pending) (k : Socket)
    (hr : s.heap ptr = some r) (hk : r.clientSock = some k) :
    s.clientSock ptr = some k ∧ k.connection < s.accepted.length := by
  have hsock : s.clientSock ptr = some k := by rw [State.clientSock, hr, Option.bind_some, hk]
  exact ⟨hsock, h.opened ▸ (h.owned.known ptr k hsock).1⟩

theorem accepted_cases {x y : Client × Bool} {n : ℕ} (hn : (s.accepted ++ [x])[n]? = some y) :
    n = s.accepted.length ∧ y = x ∨ n < s.accepted.length ∧ s.accepted[n]? = some y := by
  obtain hlt | heq | hgt := Nat.lt_trichotomy n s.accepted.length
  · rw [List.getElem?_append_left hlt] at hn
    exact .inr ⟨hlt, hn⟩
  · rw [heq, List.getElem?_concat_length] at hn
    exact .inl ⟨heq, (Option.some.inj hn).symm⟩
  · rw [List.getElem?_eq_none (by rw [List.length_append]; exact hgt)] at hn
    cases hn

theorem Good.accepts (h : Good cfg s) (ptr fd : ℕ) (c : Client) (created : Bool)
    (hheap : s.heap ptr = none) (hfree : s.process.table fd = none) (hr : ¬ Refused cfg c.sinAddr) :
    Good cfg
      { lastError := 0
        process := s.process.openConnection fd
        heap := Function.update s.heap ptr
          (some ⟨some ⟨fd, s.process.opened⟩, reply cfg c, created⟩)
        accepted := s.accepted ++ [(c, created)] } where
  owned := by
    have hopen := h.owned.openConnection fd hfree ptr (clientSock_free ptr hheap)
    have hsock := clientSock_update s ptr (some ⟨some ⟨fd, s.process.opened⟩, reply cfg c, created⟩)
    exact hsock ▸ hopen
  opened := by
    rw [Process.openConnection, h.opened, List.length_append]
    rfl
  pending q r k hq hk := by
    by_cases he : q = ptr
    · simp only [he, Function.update_self, Option.some.injEq] at hq
      subst hq
      cases hk
      obtain ⟨-, hnew, hnone⟩ := h.owned.ahead s.process.opened (Nat.le_refl _)
      refine ⟨c, ?_, hr, ?_, fun _ => hnew⟩
      · rw [h.opened]
        exact List.getElem?_concat_length
      · simp only [Process.openConnection, hnew, hnone, List.nil_append]
        exact arrived_all (reply cfg c)
    · simp only [Function.update_of_ne he] at hq
      obtain ⟨d, hd, hrest⟩ := h.pending q r k hq hk
      exact ⟨d, (List.getElem?_append_left (h.pending_known q r k hq hk).2).trans hd, hrest⟩
  answered n d b hn hc := by
    rcases accepted_cases hn with ⟨rfl, -⟩ | ⟨-, hn⟩
    · have h0 := (h.owned.ahead s.accepted.length (Nat.le_of_eq h.opened)).1
      have h1 : s.process.closes s.accepted.length = 1 := hc
      rw [h0] at h1
      cases h1
    · exact h.answered n d b hn hc

theorem Good.refuses (h : Good cfg s) (ptr fd : ℕ) (c : Client) (taken : Text) (created : Bool)
    (hheap : s.heap ptr = none) (hfree : s.process.table fd = none) (hr : Refused cfg c.sinAddr)
    (ht : taken.Sublist (reply cfg c)) :
    Good cfg
      { lastError := 2
        process := ((s.process.openConnection fd).write fd (reply cfg c) taken).close fd
        heap := Function.update s.heap ptr none
        accepted := s.accepted ++ [(c, created)] } := by
  obtain ⟨howned, hopened, hcloses, houtput, hlost⟩ := h.owned.turnAway fd hfree ptr
    (clientSock_free ptr hheap) (reply cfg c) taken
  have hsame : Function.update s.heap ptr none = s.heap := by
    rw [← hheap]
    exact Function.update_eq_self ptr s.heap
  rw [hsame]
  refine ⟨howned, ?_, ?_, ?_⟩
  · rw [hopened, h.opened, List.length_append]
    rfl
  · intro q r k hq hk
    obtain ⟨d, hd, hrest⟩ := h.pending q r k hq hk
    have hk := (h.pending_known q r k hq hk).2
    have hne : k.connection ≠ s.process.opened := by
      rw [h.opened]
      exact Nat.ne_of_lt hk
    refine ⟨d, (List.getElem?_append_left hk).trans hd, ?_⟩
    simp only [houtput, hlost, Function.update_of_ne hne]
    exact hrest
  · intro n d b hn hc
    simp only [houtput, hlost, hcloses, h.opened] at hc ⊢
    rcases accepted_cases hn with ⟨rfl, he⟩ | ⟨hlt, hn⟩
    · cases he
      simp only [Function.update_self]
      exact ⟨arrived_of_sublist ht, fun _ => hr⟩
    · simp only [Function.update_of_ne (Nat.ne_of_lt hlt)] at hc ⊢
      exact h.answered n d b hn hc

theorem Good.file (h : Good cfg s) (p : Process UInt8) (hp : Owned p s.clientSock)
    (hopened : p.opened = s.process.opened) (hcloses : p.closes = s.process.closes)
    (houtput : p.output = s.process.output) (hlost : p.lost = s.process.lost) :
    Good cfg { s with process := p } where
  owned := hp
  opened := hopened.trans h.opened
  pending ptr r k hr hk := by
    simp only [houtput, hlost]
    exact h.pending ptr r k hr hk
  answered n c b hn hc := by
    simp only [hcloses, houtput, hlost] at hc ⊢
    exact h.answered n c b hn hc

theorem Good.apart (h : Good cfg s) {p q : ℕ} {r r' : Pending} {k k' : Socket} (hr : s.heap p = some r)
    (hk : r.clientSock = some k) (hr' : s.heap q = some r') (hk' : r'.clientSock = some k') (hpq : q ≠ p) :
    k'.connection ≠ k.connection := fun hc =>
  hpq (h.owned.one q p k' k (h.pending_known q r' k' hr' hk').1 (h.pending_known p r k hr hk).1 hc)

theorem Good.writes (h : Good cfg s) (ptr n : ℕ) (taken : Text) (r : Pending) (k : Socket)
    (hr : s.heap ptr = some r) (hk : r.clientSock = some k) (hrun : r.running = true)
    (ht : taken.Sublist (r.left.take n)) :
    Good cfg
      { s with
        process := s.process.write k.fd (r.left.take n) taken
        heap := Function.update s.heap ptr (some { r with left := r.left.drop n }) } := by
  have hsock := (h.pending_known ptr r k hr hk).1
  obtain ⟨hw, hwo, hwc, hwout, hwlost⟩ := h.owned.write ptr k hsock (r.left.take n) taken
  refine ⟨?_, hwo.trans h.opened, ?_, ?_⟩
  · have hsame : Function.update s.clientSock ptr r.clientSock = s.clientSock := by
      rw [hk, ← hsock]
      exact Function.update_eq_self ptr s.clientSock
    have hupdate := (clientSock_update s ptr (some { r with left := r.left.drop n })).trans hsame
    have hown : Owned (s.process.write k.fd (r.left.take n) taken) (State.clientSock
        { s with heap := Function.update s.heap ptr (some { r with left := r.left.drop n }) }) := by
      rw [hupdate]
      exact hw
    exact hown
  · intro q r' k' hq hk'
    simp only [hwout, hwlost]
    by_cases he : q = ptr
    · simp only [he, Function.update_self, Option.some.injEq] at hq
      subst hq
      obtain rfl := Option.some.inj (hk.symm.trans hk')
      obtain ⟨c, hc, hnot, hout, -⟩ := h.pending ptr r k hr hk
      refine ⟨c, hc, hnot, ?_, fun hf => absurd (hrun.symm.trans hf) Bool.noConfusion⟩
      rw [Function.update_self, Function.update_self]
      exact hout.write (List.take_append_drop n r.left).symm ht
    · simp only [Function.update_of_ne he] at hq
      have hne := h.apart hr hk hq hk' he
      rw [Function.update_of_ne hne, Function.update_of_ne hne]
      exact h.pending q r' k' hq hk'
  · intro m c b hm hc
    simp only [hwc, hwout, hwlost] at hc ⊢
    have hne : m ≠ k.connection := by
      rintro rfl
      rw [(h.owned.known ptr k hsock).2] at hc
      cases hc
    rw [Function.update_of_ne hne, Function.update_of_ne hne]
    exact h.answered m c b hm hc

theorem Good.write (h : Good cfg s) (ptr n : ℕ) (taken : Text) (r : Pending)
    (hr : s.heap ptr = some r) (hrun : r.running = true) (ht : taken.Sublist (r.left.take n)) :
    Good cfg (setLeft ptr (r.left.drop n) (netWrite ptr (r.left.take n) taken s)) := by
  cases hk : r.clientSock with
  | none =>
    have hsock : s.clientSock ptr = none := by rw [State.clientSock, hr, Option.bind_some, hk]
    have hgood := h.withoutSocket ptr (some { r with left := r.left.drop n }) s.lastError hsock
      (by rw [Option.bind_some, hk])
    simpa only [setLeft, netWrite, hr, hsock, Option.elim_none, Option.map_some] using hgood
  | some k =>
    have hsock := (h.pending_known ptr r k hr hk).1
    have hgood := h.writes ptr n taken r k hr hk hrun ht
    simpa only [setLeft, netWrite, hr, hsock, Option.elim_some, Option.map_some] using hgood

theorem Good.finish (h : Good cfg s) (ptr : ℕ) (r : Pending) (hr : s.heap ptr = some r)
    (hrun : r.running = true) (hleft : r.left = []) : Good cfg (httpdEndRequest ptr s) := by
  cases hk : r.clientSock with
  | none =>
    have hsock : s.clientSock ptr = none := by rw [State.clientSock, hr, Option.bind_some, hk]
    have hgood := h.withoutSocket ptr none s.lastError hsock rfl
    simpa only [httpdEndRequest, hsock, Option.elim_none] using hgood
  | some k =>
    have hsock := (h.pending_known ptr r k hr hk).1
    obtain ⟨hc, hco, hcc, hcout, hclost⟩ := h.owned.close ptr k hsock
    have hprocess : (httpdEndRequest ptr s).process = s.process.close k.fd := by
      simp only [httpdEndRequest, hsock, Option.elim_some]
    refine ⟨?_, ?_, ?_, ?_⟩
    · have hown := clientSock_update s ptr none
      rw [hprocess]
      exact hown ▸ hc
    · rw [hprocess, hco]
      exact h.opened
    · intro q r' k' hq hk'
      have he : q ≠ ptr := by
        rintro rfl
        simp only [httpdEndRequest, Function.update_self, reduceCtorEq] at hq
      simp only [httpdEndRequest, Function.update_of_ne he] at hq
      rw [hprocess, hcout, hclost]
      exact h.pending q r' k' hq hk'
    · intro m c b hm hclosed
      rw [hprocess, hcout, hclost]
      rw [hprocess, hcc] at hclosed
      by_cases he : m = k.connection
      · subst he
        obtain ⟨d, hd, hnot, hout, -⟩ := h.pending ptr r k hr hk
        have hm : s.accepted[k.connection]? = some (c, b) := hm
        rw [hm] at hd
        cases hd
        rw [hleft, List.append_nil] at hout
        exact ⟨hout, fun hf => absurd (hrun.symm.trans hf) Bool.noConfusion⟩
      · rw [Function.update_of_ne he] at hclosed
        exact h.answered m c b hm hclosed

theorem step_good (e : Event) (s' : State) (hs : step cfg s e = some s') (h : Good cfg s) :
    Good cfg s' := by
  have hcases := step_cases cfg s e s' hs
  cases e with
  | pass ptr i created =>
    obtain ⟨hfree, rfl⟩ := hcases
    rw [pass_eq]
    cases i with
    | selectFails => exact ⟨h.owned, h.opened, h.pending, h.answered⟩
    | noMemory => exact ⟨h.owned, h.opened, h.pending, h.answered⟩
    | acceptFails env =>
      have hsock := clientSock_free ptr hfree.1
      by_cases hr : Refused cfg ⟨0, 0, 0, 0⟩
      · simp only [if_pos hr]
        exact h.withoutSocket ptr none 2 hsock rfl
      · simp only [if_neg hr]
        exact h.withoutSocket ptr _ 0 hsock rfl
    | accepts fd c taken =>
      obtain ⟨hheap, hfd, -, htaken⟩ := hfree
      by_cases hr : Refused cfg c.sinAddr
      · simp only [if_pos hr]
        exact h.refuses ptr fd c taken created hheap hfd hr (htaken hr)
      · simp only [if_neg hr]
        exact h.accepts ptr fd c created hheap hfd hr
  | write ptr n taken =>
    obtain ⟨r, hr, hrun, rfl⟩ := hcases
    exact h.write ptr n _ r hr hrun (List.take_sublist taken (r.left.take n))
  | finish ptr =>
    obtain ⟨r, hr, hrun, hleft, rfl⟩ := hcases
    exact h.finish ptr r hr hrun hleft
  | openFile fd =>
    obtain ⟨hfree, rfl⟩ := hcases
    exact h.file _ (h.owned.openFile fd hfree) rfl rfl rfl rfl
  | closeFile fd =>
    obtain ⟨hfile, rfl⟩ := hcases
    exact h.file _ (h.owned.closeFile fd hfile) rfl rfl rfl rfl

end

theorem run_good (cfg : Config H) (files : ℕ → Bool) (events : List Event) (s : State)
    (h : run cfg (started files) events = some s) : Good cfg s :=
  run_keeps (step cfg) (Good cfg) (fun _ e s' hs hg => step_good e s' hs hg) events _ s h
    (good_started cfg files)

/-! ## Runs -/

def Event.client? : Event → Option (Client × Bool)
  | .pass _ (.accepts _ c _) created => some (c, created)
  | _ => none

theorem step_accepted (cfg : Config H) (s : State) (e : Event) (s' : State)
    (hs : step cfg s e = some s') : s'.accepted = s.accepted ++ e.client?.toList := by
  have hcases := step_cases cfg s e s' hs
  have hsame : s.accepted = s.accepted ++ (none : Option (Client × Bool)).toList :=
    (List.append_nil _).symm
  cases e with
  | pass ptr i created =>
    rw [hcases.2, pass_eq]
    cases i with
    | selectFails => exact hsame
    | noMemory => exact hsame
    | acceptFails env => by_cases hr : Refused cfg ⟨0, 0, 0, 0⟩ <;> simp [hr, Event.client?]
    | accepts fd c taken => by_cases hr : Refused cfg c.sinAddr <;> simp [hr, Event.client?]
  | write ptr n taken =>
    obtain ⟨r, -, -, rfl⟩ := hcases
    exact hsame
  | finish ptr =>
    obtain ⟨r, -, -, -, rfl⟩ := hcases
    exact hsame
  | openFile fd =>
    rw [hcases.2]
    exact hsame
  | closeFile fd =>
    rw [hcases.2]
    exact hsame

theorem run_accepted (cfg : Config H) (events : List Event) (s s' : State)
    (h : run cfg s events = some s') : s'.accepted = s.accepted ++ events.filterMap Event.client? := by
  induction events generalizing s with
  | nil =>
    cases h
    exact (List.append_nil _).symm
  | cons e events ih =>
    rw [run, List.foldlM_cons] at h
    obtain ⟨t, ht, hrest⟩ := Option.bind_eq_some_iff.mp h
    rw [ih t hrest, step_accepted cfg s e t ht, List.append_assoc]
    cases he : e.client? with
    | none => rw [List.filterMap_cons_none he, Option.toList_none, List.nil_append]
    | some x => rw [List.filterMap_cons_some he, Option.toList_some, List.singleton_append]

/-- What has become of the connection `n`. -/
inductive Fate (cfg : Config H) (s : State) (n : ℕ) (c : Client) : Bool → Prop
  | denied (created : Bool) (hr : Refused cfg c.sinAddr) (hclosed : s.process.closes n = 1)
      (hout : Arrived (denied cfg c.env c.sinAddr).sent (s.process.output n) (s.process.lost n)) :
      Fate cfg s n c created
  | answered (hr : ¬ Refused cfg c.sinAddr) (hclosed : s.process.closes n = 1)
      (hout : Arrived (reply cfg c) (s.process.output n) (s.process.lost n)) : Fate cfg s n c true
  | running (hr : ¬ Refused cfg c.sinAddr) (hopen : s.process.closes n = 0) (ptr : ℕ) (r : Pending)
      (hheap : s.heap ptr = some r) (hsock : ∃ fd, r.clientSock = some ⟨fd, n⟩)
      (hrun : r.running = true)
      (hout : Arrived (reply cfg c) (s.process.output n ++ r.left) (s.process.lost n)) :
      Fate cfg s n c true
  | stuck (hr : ¬ Refused cfg c.sinAddr) (hopen : s.process.closes n = 0)
      (hout : s.process.output n = []) : Fate cfg s n c false

theorem reply_refused (cfg : Config H) (c : Client) (hr : Refused cfg c.sinAddr) :
    reply cfg c = (denied cfg c.env c.sinAddr).sent := by
  rw [reply, HttpdConnections.answered, if_pos hr]

theorem Good.fate {cfg : Config H} {s : State} (h : Good cfg s) (n : ℕ) (c : Client) (created : Bool)
    (hn : s.accepted[n]? = some (c, created)) : Fate cfg s n c created := by
  have hlt : n < s.process.opened := by
    rw [h.opened]
    exact (List.getElem?_eq_some_iff.mp hn).1
  by_cases hclosed : s.process.closes n = 1
  · obtain ⟨hout, hcreated⟩ := h.answered n c created hn hclosed
    by_cases hr : Refused cfg c.sinAddr
    · exact .denied created hr hclosed (reply_refused cfg c hr ▸ hout)
    · cases created with
      | false => exact absurd (hcreated rfl) hr
      | true => exact .answered hr hclosed hout
  · have hopen : s.process.closes n = 0 := by
      have hle := h.owned.closes_le n
      omega
    obtain ⟨ptr, k, hk, rfl⟩ := h.owned.holder_of_open n hlt hopen
    obtain ⟨r, hheap, hsock⟩ := Option.bind_eq_some_iff.mp hk
    obtain ⟨d, hd, hr, hout, hsilent⟩ := h.pending ptr r k hheap hsock
    rw [hn] at hd
    cases hd
    cases hrun : r.running with
    | false => exact .stuck hr hopen (hsilent hrun)
    | true => exact .running hr hopen ptr r hheap ⟨k.fd, hsock⟩ hrun hout

def twice (cfg : Config H) (first second : Client) : List Event :=
  [.pass 0 (.accepts 4 first []) true, .write 0 (reply cfg first).length 0, .finish 0,
   .pass 0 (.accepts 4 second []) true]

theorem twice_runs (cfg : Config H) (first second : Client) (files : ℕ → Bool)
    (hf : files 4 = false) (h1 : ¬ Refused cfg first.sinAddr) (h2 : ¬ Refused cfg second.sinAddr)
    (hi1 : (answered cfg first).overrun = false) (hi2 : (answered cfg second).overrun = false) :
    (run cfg (started files) (twice cfg first second)).isSome := by
  simp [run, twice, step, pass_eq, h1, h2, hi1, hi2, started, idle, hf, Incoming.Possible, setLeft,
    netWrite, httpdEndRequest, State.clientSock, Process.openConnection, Process.write, Process.close]

def portal : Config HttpdDispatch.Callback := ⟨HttpdResponse.start 0, []⟩

def silent (host : UInt8) : Client :=
  ⟨⟨10, 0, 0, host⟩, HttpdFraming.plainEnvironment, ⟨[], fun _ => 0, ⟨[], .closed⟩⟩⟩

theorem not_refused (sinAddr : InAddr) : ¬ Refused portal sinAddr := fun h => h.1 rfl

end FasterConfig.HttpdConnections
