import FasterConfig.DnsWellFormed
import FasterConfig.DottedQuad
import FasterConfig.IptableTexts

/-!
# The way of a client

What the program is for, from the file to the client: a name query is led to
the program's name server, the server answers with the address of the file, and
a request to that address is led to the program's web server. All of it holds
while the gate is up, in any state that runs of the program can have left.
-/

set_option autoImplicit false

namespace FasterConfig.Captive
open FasterConfig.Octets FasterConfig.Strings FasterConfig.NatTable FasterConfig.PacketWalk
open FasterConfig.IptablePackets FasterConfig.IptableGate FasterConfig.IptableRefusals
open FasterConfig.IptableTexts
open FasterConfig.Iptable (Conf Firewall Hook)
open FasterConfig.ConfigFile FasterConfig.ConfigLines FasterConfig.ConfigFields FasterConfig.ConfigText
open FasterConfig.DnsServer FasterConfig.DnsReply FasterConfig.DnsWellFormed
open FasterConfig.Rfc1035 (Message)
open FasterConfig.IptableRestart (Without)
open FasterConfig.DottedQuad

/-! ## What the file says -/

structure Settings where
  dnsPort : ℤ
  dnsIP : InAddr
  HttpPort : ℤ
  apInterface : Text

/-- The last line of each key has this behind it. -/
structure Says (file : Text) (x : Settings) : Prop where
  dnsPort : ∃ l, (own IntField.dnsPort.key file).getLast? = some l ∧
    (secondWord l).bind numeral = some x.dnsPort
  dnsIP : ∃ l, (own StrField.dnsIP.key file).getLast? = some l ∧ secondWord l = some (dotted x.dnsIP)
  HttpPort : ∃ l, (own IntField.HttpPort.key file).getLast? = some l ∧
    (secondWord l).bind numeral = some x.HttpPort
  apInterface : ∃ l, (own StrField.apInterface.key file).getLast? = some l ∧
    secondWord l = some x.apInterface

/-- Nothing of it is refused by the firewall, and the shell takes it as it is. -/
structure Settings.Fit (x : Settings) : Prop where
  dnsPort : portFits x.dnsPort = true
  HttpPort : portFits x.HttpPort = true
  apInterface : nameFits (stringOf x.apInterface) = true
  plain : IsPlain x.apInterface

structure Carried (x : Settings) (s : Fields) : Prop where
  dnsPort : (confOf s).dnsPort = x.dnsPort
  dnsIP : s.strs .dnsIP = dotted x.dnsIP
  HttpPort : (confOf s).HttpPort = x.HttpPort
  apInterface : s.strs .apInterface = x.apInterface

theorem taken_int (file : Text) (s s' : Fields) (h : Taken file s s') (f : IntField) (v : ℤ)
    (hf : ∃ l, (own f.key file).getLast? = some l ∧ (secondWord l).bind numeral = some v) :
    (s'.ints f).toInt = v := by
  obtain ⟨l, hl, hv⟩ := hf
  have ht := h.intTaken f l hl
  rw [hv] at ht
  exact (Option.some.inj ht).symm

theorem taken_str (file : Text) (s s' : Fields) (h : Taken file s s') (f : StrField) (w : Text)
    (hf : ∃ l, (own f.key file).getLast? = some l ∧ secondWord l = some w) : s'.strs f = w := by
  obtain ⟨l, hl, hw⟩ := hf
  have ht := h.strTaken f l hl
  rw [hw] at ht
  exact (Option.some.inj ht).symm

theorem file_taken (file : Text) (h0 : 0 ∉ file) (hc : Clear file) (val : ℕ → IntField → Int32)
    (buf : CArray bufSize) (s : Fields) : ∃ s', readConfigFile val file buf s = some s' ∧ Taken file s s' :=
  ⟨_, read_run file h0 hc.nonempty hc.short val buf s, taken_of_clear file hc val s⟩

theorem file_carried (file : Text) (x : Settings) (h : Says file x) (s s' : Fields) (ht : Taken file s s') :
    Carried x s' := by
  constructor
  · exact taken_int file s s' ht .dnsPort _ h.dnsPort
  · exact taken_str file s s' ht .dnsIP _ h.dnsIP
  · exact taken_int file s s' ht .HttpPort _ h.HttpPort
  · exact taken_str file s s' ht .apInterface _ h.apInterface

/-! ## Query, answer, visit -/

/-- What lies outside of the program: the packets that the kernel sees and how it, `iptables` and
`inet_aton` read the address. -/
structure Outside (ρ : Type*) where
  kernel : Kernel InAddr ρ
  resolves : String → Bool
  inetAton : Text → Option InAddr
  denotes_dotted : ∀ a b, kernel.denotes (stringOf (dotted a)) b = true ↔ b = a
  resolves_dotted : ∀ a, resolves (stringOf (dotted a)) = true
  inetAton_dotted : ∀ a, inetAton (dotted a) = some a

section
variable {ρ : Type*} (o : Outside ρ)

def LetThrough (t : Firewall) (p : Packet InAddr ρ) : Prop :=
  Walks (reading o.kernel) t p (t.builtin .prerouting) .through

def Comes (t : Firewall) (p : Packet InAddr ρ) (e : End Verdict) : Prop :=
  Walks (reading o.kernel) t p (t.builtin .prerouting) e

def toPort (up : Bool) (port : ℤ) : End Verdict := if up then .verdict (.redirect port) else .through

def tableOf (t₀ : Firewall) (past : List (Fields × List Bool)) (s : Fields) (obs : List Bool) : Firewall :=
  shellRun o.resolves (shellRuns o.resolves t₀ past) (sessionTexts s obs)

theorem comes_gate (t₀ : Firewall) (ht : Without t₀) (past : List (Fields × List Bool))
    (hpast : ∀ r ∈ past, PlainFields r.1) (s : Fields) (hs : PlainFields s)
    (hf : Fits o.resolves (confOf s)) (obs : List Bool) (p : Packet InAddr ρ) (hp : LetThrough o t₀ p) :
    Comes o (tableOf o t₀ past s obs) p (gate o.kernel (confOf s) (up obs) p .prerouting) := by
  rw [up_eq]
  exact (shell_fate o.kernel o.resolves t₀ ht past hpast s hs hf obs .prerouting p _).mpr ⟨.through, hp, rfl⟩

theorem dotted_plain (a : InAddr) : IsPlain (dotted a) := by
  have hdigits (n : ℕ) : IsPlain (HttpdResponse.digits n) := fun c hc => isPlain_digit (digits_all n c hc)
  have hdot : isPlain HttpdRequest.dot = true := by decide
  intro c hc
  simp only [dotted, List.mem_append, List.mem_cons] at hc
  rcases hc with hc | rfl | hc | rfl | hc | rfl | hc
  · exact hdigits _ c hc
  · exact hdot
  · exact hdigits _ c hc
  · exact hdot
  · exact hdigits _ c hc
  · exact hdot
  · exact hdigits _ c hc

theorem dotted_ne_empty (a : InAddr) : stringOf (dotted a) ≠ "" := by
  intro h
  have hl := congrArg String.length h
  simp [stringOf, dotted] at hl

theorem carried_plain (x : Settings) (hx : x.Fit) (s : Fields) (h : Carried x s) : PlainFields s where
  apInterface := by
    rw [h.apInterface]
    exact hx.plain
  dnsIP := by
    rw [h.dnsIP]
    exact dotted_plain x.dnsIP

theorem carried_fits (x : Settings) (hx : x.Fit) (s : Fields) (h : Carried x s) :
    Fits o.resolves (confOf s) where
  apInterface := by
    rw [confOf, h.apInterface]
    exact hx.apInterface
  dnsIP := by
    rw [confOf, h.dnsIP]
    exact decide_eq_true ⟨dotted_ne_empty x.dnsIP, o.resolves_dotted x.dnsIP⟩
  dnsPort := by
    rw [h.dnsPort]
    exact hx.dnsPort
  HttpPort := by
    rw [h.HttpPort]
    exact hx.HttpPort

theorem gate_query (conf : Conf) (up : Bool) (p : Packet InAddr ρ) (h : IsQuery conf p) :
    gate o.kernel conf up p .prerouting = toPort up conf.dnsPort := by
  cases up with
  | true => exact if_pos ⟨rfl, h⟩
  | false => rfl

theorem gate_visit (conf : Conf) (up : Bool) (p : Packet InAddr ρ) (h : IsVisit o.kernel conf p) :
    gate o.kernel conf up p .prerouting = toPort up conf.HttpPort := by
  have hq : ¬ IsQuery conf p := by
    intro hq
    have h80 := h.2.2
    rw [hq.2.2] at h80
    cases h80
  cases up with
  | true =>
    rw [gate, if_neg fun hn => hq hn.2]
    exact if_pos ⟨rfl, h⟩
  | false => rfl

def AsksAddress (q : Query) : Prop :=
  q.qtype = nsTA ∨ q.qtype = nsTAaaa ∨ q.qtype = nsTTxt ∨ q.qtype = nsTPtr

def addressMessage (a : InAddr) (q : Query) : Message where
  id := q.id
  flags := 0x8400
  questions := [askedQuestion q]
  answers := [recordA questionName a]
  authority := []
  additional := []

theorem reply_address (a : InAddr) (server : State) (q : Query) (hn : HostName q.qname)
    (ht : AsksAddress q) : reply a server q.datagram = some (addressMessage a q).encode := by
  have hs : sections a q.qtype = ⟨[recordA questionName a], [], []⟩ := by
    rcases ht with h | h | h | h <;> rw [h] <;> rfl
  have hl : leftover a q.qtype = [] := by
    rcases ht with h | h | h | h <;> rw [h] <;> rfl
  rw [reply_plain a server q (hostName_plain _ hn), hl, List.append_nil, replyMessage, hs]
  rfl

/-- From the file to the client, for any earlier runs and anything the loop has seen. -/
theorem client_captured (file : Text) (h0 : 0 ∉ file) (hc : Clear file) (x : Settings)
    (h : Says file x) (hfit : x.Fit) (val : ℕ → IntField → Int32) (buf : CArray bufSize) (s : Fields)
    (t₀ : Firewall) (ht : Without t₀) (past : List (Fields × List Bool))
    (hpast : ∀ r ∈ past, PlainFields r.1) (obs : List Bool) :
    ∃ s', readConfigFile val file buf s = some s' ∧
      let t := tableOf o t₀ past s' obs
      let up := lockedNow (phases obs) != lost (phases obs)
      (∀ p, LetThrough o t₀ p → onInterface (stringOf x.apInterface) p.inInterface = true →
        p.proto.isSome → p.dport = 53 → Comes o t p (toPort up x.dnsPort)) ∧
      (∀ server q, HostName q.qname → AsksAddress q →
        (o.inetAton (s'.strs .dnsIP)).bind (fun a => reply a server q.datagram) =
          some (addressMessage x.dnsIP q).encode) ∧
      ∀ p, LetThrough o t₀ p → p.destination = x.dnsIP → p.proto = some .tcp → p.dport = 80 →
        Comes o t p (toPort up x.HttpPort) := by
  obtain ⟨s', hread, ht'⟩ := file_taken file h0 hc val buf s
  have hx := file_carried file x h s s' ht'
  have hs := carried_plain x hfit s' hx
  have hf := carried_fits o x hfit s' hx
  refine ⟨s', hread, ?_, ?_, ?_⟩
  · intro p hp hi hproto hport
    have hq : IsQuery (confOf s') p := by
      refine ⟨?_, hproto, hport⟩
      rw [confOf, hx.apInterface]
      exact hi
    have hcomes := comes_gate o t₀ ht past hpast s' hs hf obs p hp
    rwa [gate_query o _ _ p hq, hx.dnsPort, up_eq] at hcomes
  · intro server q hn hq
    rw [hx.dnsIP, o.inetAton_dotted, Option.bind_some]
    exact reply_address x.dnsIP server q hn hq
  · intro p hp hd hproto hport
    have hv : IsVisit o.kernel (confOf s') p := by
      refine ⟨?_, hproto, hport⟩
      rw [confOf, hx.dnsIP]
      exact (o.denotes_dotted _ _).mpr hd
    have hcomes := comes_gate o t₀ ht past hpast s' hs hf obs p hp
    rwa [gate_visit o _ _ p hv, hx.HttpPort, up_eq] at hcomes

end

/-! ## A file like the one that is shipped -/

theorem stringOf_injective : Function.Injective stringOf := by
  intro s t h
  have hl := congrArg String.toList h
  rw [stringOf, stringOf, String.toList_ofList, String.toList_ofList] at hl
  apply List.map_injective_iff.mpr _ hl
  intro c d hcd
  have hc : ∀ c : UInt8, (Char.ofNat c.toNat).toNat = c.toNat :=
    octet_induction (by decide +kernel)
  apply UInt8.toNat_inj.mp
  rw [← hc c, ← hc d]
  exact congrArg Char.toNat hcd

def plainOutside : Outside Unit where
  kernel :=
    { denotes := fun text a => text = stringOf (dotted a)
      otherApplies := fun _ _ => false
      otherTarget := fun _ => .through }
  resolves text := text ≠ ""
  inetAton t := (Cidr.scanCidr t).map fun r => ofHostOrder r.1
  denotes_dotted a b := by
    rw [decide_eq_true_eq]
    exact ⟨fun h => (dotted_injective (stringOf_injective h)).symm, fun h => by rw [h]⟩
  resolves_dotted a := decide_eq_true (dotted_ne_empty a)
  inetAton_dotted a := by
    rw [scanCidr_dotted, Option.map_some, ofHostOrder_hostOrder]

def tetherFile : Text :=
  ascii "DnsPort 2048\nDnsIP 172.31.1.2\nHttpPort 2049\napInterface tether\n"

def tetherSettings : Settings := ⟨2048, ⟨172, 31, 1, 2⟩, 2049, ascii "tether"⟩

def tetherItems : List Item :=
  [dnsPortItem, .str .dnsIP 0 (ascii "172.31.1.2") blocked_word (by decide), HttpPortItem, apInterfaceItem]

theorem tether_text : fileText tetherItems = tetherFile := by decide +kernel

theorem tether_clear : Clear tetherFile := by
  rw [← tether_text]
  exact clear_written tetherItems (List.cons_ne_nil _ _)

theorem tether_says : Says tetherFile tetherSettings := by
  rw [← tether_text]
  refine ⟨?_, ?_, ?_, ?_⟩
  · exact own_int tetherItems .dnsPort 2048 (by decide)
  · exact own_str tetherItems .dnsIP (dotted ⟨172, 31, 1, 2⟩) (by decide)
  · exact own_int tetherItems .HttpPort 2049 (by decide)
  · exact own_str tetherItems .apInterface (ascii "tether") (by decide)

def foreignQuery : Packet InAddr Unit := ⟨"tether", some .udp, ⟨8, 8, 8, 8⟩, 53, ()⟩

theorem tether_plain : IsPlain (ascii "tether") := List.all_eq_true.mp (by decide)

theorem tether_fit : tetherSettings.Fit := ⟨by decide, by decide, by decide +kernel, tether_plain⟩

/-- The interface of the run before has a name of sixteen letters. -/
theorem tether_client_captured : ∃ s',
    readConfigFile (fun _ _ => 0) tetherFile (CArray.zero bufSize) ⟨fun _ => 0, fun _ => []⟩ = some s' ∧
      Comes plainOutside (tableOf plainOutside IptableRestart.emptyTable
        [(tetherFields (ascii "tether-interface"), [true])] s' [true])
        foreignQuery (.verdict (.redirect 2048)) := by
  obtain ⟨s', hread, hquery, -, -⟩ := client_captured plainOutside tetherFile (by decide +kernel)
    tether_clear tetherSettings tether_says tether_fit (fun _ _ => 0) (CArray.zero bufSize)
    ⟨fun _ => 0, fun _ => []⟩ IptableRestart.emptyTable IptableRestart.emptyTable_without _ overlong_plain [true]
  exact ⟨s', hread, hquery foreignQuery ((walks_nil _ _ _ _).mpr rfl) (by decide +kernel) rfl rfl⟩

end FasterConfig.Captive
