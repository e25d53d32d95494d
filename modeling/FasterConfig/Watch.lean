import FasterConfig.IptableGate
import FasterConfig.Strings

/-!
# What the main loop looks at

The gateway counts as locked while exactly one path matches the lock file, and
otherwise while the station interface has no address that can be named. The
list of interfaces is given back only where the interface is not found in it,
and of the texts of the commands only the last one is, so a run that goes well
loses one list in each unlocked pass and three texts with each redirection.
-/

set_option autoImplicit false

namespace FasterConfig.Watch
open FasterConfig.Strings FasterConfig.Iptable FasterConfig.Application FasterConfig.IptableGate

inductive Family where
  | inet
  | other
  deriving DecidableEq, Repr

/-- `hasName` tells whether `getnameinfo` succeeds. -/
structure SockAddr where
  family : Family
  hasName : Bool
  deriving DecidableEq, Repr

structure IfAddrs where
  ifaName : Text
  ifaAddr : Option SockAddr
  deriving DecidableEq, Repr

/-- What a pass finds: the paths that match `lockfile`, and the interfaces unless they cannot be
listed. -/
structure World where
  gl : List Text
  ifaddr : Option (List IfAddrs)

/-- How many lists of interfaces and how many texts have been allocated and not freed. -/
structure Heap where
  lists : ℕ
  texts : ℕ
  deriving DecidableEq, Repr

def Heap.getifaddrs (m : Heap) : Heap := { m with lists := m.lists+1 }
def Heap.freeifaddrs (m : Heap) : Heap := { m with lists := m.lists-1 }
def Heap.asprintf (m : Heap) : Heap := { m with texts := m.texts+1 }
def Heap.free (m : Heap) : Heap := { m with texts := m.texts-1 }

def islocked (w : World) : Bool := w.gl.length = 1

def search (interfaceName : Text) : List IfAddrs → Option ℤ
  | [] => none
  | ifa::rest => match ifa.ifaAddr with
    | none => search interfaceName rest
    | some addr =>
      if ifa.ifaName = interfaceName ∧ addr.family = .inet then
        if addr.hasName = false then some 0 else some 1
      else search interfaceName rest

def getNetworkStatus (interfaceName : Text) (w : World) (m : Heap) : ℤ × Heap :=
  match w.ifaddr with
  | none => (0, m)
  | some ifaddr =>
    let m := m.getifaddrs
    match search interfaceName ifaddr with
    | some r => (r, m)
    | none => (0, m.freeifaddrs)

/-- The interfaces are only looked at where there is no lock file. -/
def observe (staInterface : Text) (w : World) (m : Heap) : Bool × Heap :=
  if islocked w then (true, m)
  else
    let r := getNetworkStatus staInterface w m
    (decide (r.1 = 0), r.2)

/-- Four texts in one variable, of which one is freed. -/
def iptableRedirectDns (m : Heap) : Heap := m.asprintf.asprintf.asprintf.asprintf.free

def iptableRedirectHttp (m : Heap) : Heap := m.asprintf.free

structure Main where
  app : State
  heap : Heap

/-- A pass of the loop, with what it allocates; the flag that it tests for the redirection is the
one from before the pass wherever it tests it. -/
def pass (conf : Conf) (staInterface : Text) (s : Main) (w : World) : Main :=
  let r := observe staInterface w s.heap
  { app := loopBody conf s.app r.1
    heap := if r.1 = true ∧ s.app.isRedirected ≠ 1 then iptableRedirectHttp (iptableRedirectDns r.2)
      else r.2 }

def watch (conf : Conf) (staInterface : Text) (t : Firewall) (worlds : List World) : Main :=
  worlds.foldl (pass conf staInterface) ⟨startRun t, ⟨0, 0⟩⟩

/-! ## What a pass finds -/

def IfAddrs.isInet (interfaceName : Text) (ifa : IfAddrs) : Bool :=
  ifa.ifaName = interfaceName ∧ ifa.ifaAddr.map SockAddr.family = some .inet

def World.address (w : World) (interfaceName : Text) : Option SockAddr :=
  (w.ifaddr.bind fun ifaddr => ifaddr.find? (IfAddrs.isInet interfaceName)).bind IfAddrs.ifaAddr

def World.locked (w : World) (staInterface : Text) : Bool :=
  w.gl.length = 1 ∨ (w.address staInterface).map SockAddr.hasName ≠ some true

def World.keeps (w : World) (staInterface : Text) : Bool :=
  w.gl.length ≠ 1 ∧ (w.address staInterface).isSome

theorem search_eq (interfaceName : Text) (ifaddr : List IfAddrs) :
    search interfaceName ifaddr =
      ((ifaddr.find? (IfAddrs.isInet interfaceName)).bind IfAddrs.ifaAddr).map fun addr =>
        if addr.hasName then 1 else 0 := by
  induction ifaddr with
  | nil => rfl
  | cons ifa rest ih =>
    obtain ⟨name, addr⟩ := ifa
    rw [search, List.find?_cons]
    cases addr with
    | none => simpa [IfAddrs.isInet] using ih
    | some addr =>
      by_cases h : name = interfaceName ∧ addr.family = .inet
      · have hi : IfAddrs.isInet interfaceName ⟨name, some addr⟩ = true := by
          simpa [IfAddrs.isInet] using h
        simp only [if_pos h, hi, Option.bind_some, Option.map_some]
        cases addr.hasName <;> rfl
      · have hi : IfAddrs.isInet interfaceName ⟨name, some addr⟩ = false := by
          simpa [IfAddrs.isInet] using h
        simp only [if_neg h, hi]
        exact ih

theorem getNetworkStatus_eq (interfaceName : Text) (w : World) (m : Heap) :
    getNetworkStatus interfaceName w m =
      (if (w.address interfaceName).map SockAddr.hasName = some true then 1 else 0,
        if (w.address interfaceName).isSome then m.getifaddrs else m) := by
  obtain ⟨gl, ifaddr⟩ := w
  rw [getNetworkStatus]
  cases ifaddr with
  | none => rfl
  | some ifaddr =>
    have hsearch := search_eq interfaceName ifaddr
    have haddr : World.address ⟨gl, some ifaddr⟩ interfaceName =
        (ifaddr.find? (IfAddrs.isInet interfaceName)).bind IfAddrs.ifaAddr := rfl
    rw [← haddr] at hsearch
    cases hx : World.address ⟨gl, some ifaddr⟩ interfaceName with
    | none =>
      rw [hx] at hsearch
      simp only [hsearch]
      rfl
    | some addr =>
      rw [hx] at hsearch
      simp only [hsearch]
      cases h : addr.hasName <;> simp [h]

theorem observe_eq (staInterface : Text) (w : World) (m : Heap) :
    observe staInterface w m =
      (w.locked staInterface, if w.keeps staInterface then m.getifaddrs else m) := by
  rw [observe, islocked, World.locked, World.keeps]
  by_cases hl : w.gl.length = 1
  · simp [hl]
  · simp only [hl, decide_false, Bool.false_eq_true, if_false, getNetworkStatus_eq]
    cases w.address staInterface with
    | none => simp
    | some addr => cases h : addr.hasName <;> simp [h, hl]

example : World.locked ⟨[ascii "a.lock", ascii "b.lock"],
    some [⟨ascii "wlan0", none⟩, ⟨ascii "wlan0", some ⟨.inet, true⟩⟩]⟩ (ascii "wlan0") = false := by
  decide

/-! ## Redirections -/

/-- The locked phases that have not lost track. -/
def turned : List Phase → ℕ
  | [] => 0
  | ph::phs => turned phs + if ph.locked = true ∧ lost (ph::phs) = false then 1 else 0

theorem redirected_turning (l : Ledger) (ph : Phase) (phs : List Phase) (h : Shown l ph phs) :
    l.redirected = false ↔ ¬ Turning ph phs ∧ ph.locked = false := by
  by_cases ht : Turning ph phs
  · rw [h.turning ht]
    exact iff_of_false (by simp) fun hn => hn.1 ht
  · rw [h.settled ht]
    exact (and_iff_right ht).symm

theorem turned_seen (l : Ledger) (ph : Phase) (phs : List Phase) (o : Bool) (h : Shown l ph phs) :
    turned (seen (ph::phs) o) =
      turned (ph::phs) + if o = true ∧ l.redirected = false then 1 else 0 := by
  have hred := redirected_turning l ph phs h
  rw [seen]
  by_cases ho : ph.locked = o
  · have hn : ¬ (o = true ∧ l.redirected = false) := by
      rintro ⟨rfl, hl⟩
      rw [(hred.mp hl).2] at ho
      cases ho
    rw [if_pos ho, if_neg hn, turned, turned, lost_same phs ⟨o, ph.ticks+1⟩ ph, ho]
    rfl
  · have hlost : lost (⟨o, 1⟩::ph::phs) = false ↔ ¬ Turning ph phs := by
      rw [← lost_turn ph ⟨o, 1⟩ phs, Bool.not_eq_true]
    rw [if_neg ho, turned]
    apply congrArg (turned (ph::phs) + ·)
    apply if_congr _ rfl rfl
    rw [hlost, hred]
    apply and_congr_right
    rintro rfl
    rw [Bool.not_eq_true] at ho
    exact (and_iff_left ho).symm

/-! ## Whole runs -/

/-- What a run of the loop has seen, and what it has kept. -/
structure Keeps (conf : Conf) (staInterface : Text) (t : Firewall) (worlds : List World) (s : Main) :
    Prop where
  app : s.app = runLoop conf (startRun t) (worlds.map (World.locked · staInterface))
  lists : s.heap.lists = worlds.countP (World.keeps · staInterface)
  texts : s.heap.texts = 3*turned (phases (worlds.map (World.locked · staInterface)))

theorem turned_run (conf : Conf) (t : Firewall) (obs : List Bool) (o : Bool) :
    turned (phases (obs ++ [o])) = turned (phases obs) +
      if o = true ∧ (runLoop conf (startRun t) obs).isRedirected ≠ 1 then 1 else 0 := by
  obtain ⟨ph, phs, hp, h⟩ := shown_run obs _ _ _ shown_start
  have htracks : Tracks conf (runLoop conf (startRun t) obs) (obs.foldl Ledger.tick ⟨false, true, 0⟩) :=
    Runs.run_related _ _ (Tracks conf) (fun u l o h => loopBody_tracks conf u l o h) _ _ obs
      (start_tracks conf t)
  have hflag : (runLoop conf (startRun t) obs).isRedirected ≠ 1 ↔
      (obs.foldl Ledger.tick ⟨false, true, 0⟩).redirected = false := by
    rw [htracks.redirectFlag]
    cases (obs.foldl Ledger.tick ⟨false, true, 0⟩).redirected <;> simp
  rw [phases, List.foldl_concat, ← phases, phases, hp, turned_seen _ ph phs o h]
  simp only [hflag]

theorem pass_keeps (conf : Conf) (staInterface : Text) (t : Firewall) (worlds : List World) (s : Main)
    (w : World) (h : Keeps conf staInterface t worlds s) :
    Keeps conf staInterface t (worlds ++ [w]) (pass conf staInterface s w) := by
  have hturned := turned_run conf t (worlds.map (World.locked · staInterface)) (w.locked staInterface)
  rw [← h.app] at hturned
  constructor
  · rw [List.map_append, List.map_singleton, runLoop, List.foldl_concat, pass, observe_eq, h.app]
    rfl
  · rw [List.countP_append, List.countP_singleton, ← h.lists, pass, observe_eq]
    simp only [iptableRedirectHttp, iptableRedirectDns, Heap.asprintf, Heap.free, Heap.getifaddrs]
    split_ifs <;> rfl
  · rw [List.map_append, List.map_singleton, hturned, Nat.mul_add, ← h.texts, pass, observe_eq]
    simp only [iptableRedirectHttp, iptableRedirectDns, Heap.asprintf, Heap.free, Heap.getifaddrs]
    split_ifs <;> rfl

theorem watch_keeps (conf : Conf) (staInterface : Text) (t : Firewall) (worlds : List World) :
    Keeps conf staInterface t worlds (watch conf staInterface t worlds) := by
  induction worlds using List.reverseRecOn with
  | nil => exact ⟨rfl, rfl, rfl⟩
  | append_singleton worlds w ih =>
    rw [watch, List.foldl_concat]
    exact pass_keeps conf staInterface t worlds _ w ih

end FasterConfig.Watch
