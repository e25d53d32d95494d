import FasterConfig.ConfigText
import FasterConfig.IptableRefusals
import FasterConfig.Printf

/-!
# The texts of the commands

What the program hands to the shell is text, printed twice: once from the
configuration, and once more as a format of its own. A configuration of plain
texts comes through both, and the words that the shell makes of a text are the
arguments of one command. A command whose names or numbers do not fit is
refused; the others are those of the run, in their order.
-/

set_option autoImplicit false

namespace FasterConfig.IptableTexts
open FasterConfig.Strings FasterConfig.Separators FasterConfig.Printf FasterConfig.ConfigFile
open FasterConfig.NatTable FasterConfig.PacketWalk FasterConfig.IptablePackets FasterConfig.IptableGate
open FasterConfig.IptableFaults FasterConfig.IptableRefusals
open FasterConfig.Iptable (Proto Spec Firewall FwRule Hook jump Conf dnsRedirect dnsDnat httpRedirect
  chainOutgoing chainPrerouting chainIncoming chainPostrouting)
open FasterConfig.IptableRestart (Without)
open FasterConfig.Cidr (isDigit value)
open FasterConfig.ConfigText (decimal_octet decimal_word digits_all digits_ne_nil)
open FasterConfig.HttpdResponse (decimal digits)

def stringOf (t : Text) : String := String.ofList (t.map fun c => Char.ofNat c.toNat)

/-- The fields that `Application::run` hands on. -/
def confOf (s : Fields) : Conf where
  dnsPort := (s.ints .dnsPort).toInt
  dnsIP := stringOf (s.strs .dnsIP)
  HttpPort := (s.ints .HttpPort).toInt
  gatewayIP := stringOf (s.strs .gatewayIP)
  apInterface := stringOf (s.strs .apInterface)

/-! ## What the program prints -/

def iptabelSetNewChain : List (Option Text) :=
  [some (ascii "-t nat -N " ++ ascii chainOutgoing),
   some (ascii "-t nat -N " ++ ascii chainPrerouting),
   some (ascii "-t nat -N " ++ ascii chainIncoming),
   some (ascii "-t nat -N " ++ ascii chainPostrouting),
   some (ascii "-t nat -A OUTPUT       -j " ++ ascii chainOutgoing),
   some (ascii "-t nat -A PREROUTING   -j " ++ ascii chainPrerouting),
   some (ascii "-t nat -A INPUT        -j " ++ ascii chainIncoming),
   some (ascii "-t nat -A POSTROUTING  -j " ++ ascii chainPostrouting)]

def iptableDestroyRule : List (Option Text) :=
  [some (ascii "-t nat -F " ++ ascii chainOutgoing),
   some (ascii "-t nat -F " ++ ascii chainPrerouting),
   some (ascii "-t nat -F " ++ ascii chainIncoming),
   some (ascii "-t nat -F " ++ ascii chainPostrouting),
   some (ascii "-t nat -X " ++ ascii chainOutgoing),
   some (ascii "-t nat -X " ++ ascii chainPrerouting),
   some (ascii "-t nat -X " ++ ascii chainIncoming),
   some (ascii "-t nat -X " ++ ascii chainPostrouting)]

def iptableRedirectDns (interface : Text) (rePort : ℤ) : List (Option Text) :=
  [asprintf (ascii " -t nat -I " ++ ascii chainPrerouting ++
      ascii " -i %s -p udp -m udp --dport 53 -j REDIRECT --to-ports %d") [.str interface, .int rePort],
   asprintf (ascii " -t nat -I " ++ ascii chainPrerouting ++
      ascii " -i %s -p tcp -m tcp --dport 53 -j REDIRECT --to-ports %d") [.str interface, .int rePort],
   asprintf (ascii " -t nat -A " ++ ascii chainOutgoing ++
      ascii " -p udp --dport %d -j DNAT --to 127.0.0.1:53") [.int rePort],
   asprintf (ascii " -t nat -A " ++ ascii chainOutgoing ++
      ascii " -p tcp --dport %d -j DNAT --to 127.0.0.1:53") [.int rePort]]

def iptableRedirectHttp (destIP _srcIP : Text) (srcPort : ℤ) : List (Option Text) :=
  [asprintf (ascii " -t nat -A " ++ ascii chainPrerouting ++
      ascii "  -d  %s  -p tcp --dport 80 -j REDIRECT --to-ports %d") [.str destIP, .int srcPort]]

/-- The text is a format without arguments here. -/
def iptablesDoCommand (format : Text) : Option Text :=
  (asprintf format []).bind fun fmt_cmd => asprintf (ascii "iptables %s") [.str fmt_cmd]

def redirectTexts (s : Fields) : List (Option Text) :=
  iptableRedirectDns (s.strs .apInterface) (s.ints .dnsPort).toInt ++
    iptableRedirectHttp (s.strs .dnsIP) (s.strs .gatewayIP) (s.ints .HttpPort).toInt

def sessionTexts (s : Fields) (obs : List Bool) : List (Option Text) :=
  runGives iptabelSetNewChain iptableDestroyRule (redirectTexts s) obs

/-! ## How it is read -/

def blank : UInt8 := 0x20

/-- Stands for itself wherever the shell meets it. -/
def isPlain (c : UInt8) : Bool :=
  isDigit c ∨ (0x41 ≤ c ∧ c ≤ 0x5a) ∨ (0x61 ≤ c ∧ c ≤ 0x7a) ∨ c ∈ ascii "-_.:+@/,"

/-- `none` where the shell has more to do than to look for words. -/
def shellWords (cmd_line : Text) : Option (List Text) :=
  if cmd_line.all (fun c => c = blank ∨ isPlain c = true) then some (words (· = blank) cmd_line) else none

inductive Verb where
  | new
  | append
  | insert
  | flush
  | delete
  deriving DecidableEq

inductive Opt where
  | table
  | verb (v : Verb)
  | inInterface
  | destination
  | protocol
  | extension
  | dport
  | jump
  | toPorts
  | toDestination
  deriving DecidableEq

def opts : List (Text × Opt) :=
  [(ascii "-t", .table), (ascii "-N", .verb .new), (ascii "-A", .verb .append),
   (ascii "-I", .verb .insert), (ascii "-F", .verb .flush), (ascii "-X", .verb .delete),
   (ascii "-i", .inInterface), (ascii "-d", .destination), (ascii "-p", .protocol),
   (ascii "-m", .extension), (ascii "--dport", .dport), (ascii "-j", .jump),
   (ascii "--to-ports", .toPorts), (ascii "--to", .toDestination)]

def optOf (w : Text) : Option Opt := (opts.find? fun o => o.1 = w).map Prod.snd

inductive Target where
  | redirect
  | dnat
  | chain (c : String)
  deriving DecidableEq

def targetOf (w : Text) : Target :=
  if w = ascii "REDIRECT" then .redirect else if w = ascii "DNAT" then .dnat else .chain (stringOf w)

def protoOf (w : Text) : Option Proto :=
  if w = ascii "udp" then some .udp else if w = ascii "tcp" then some .tcp else none

def chainOf (w : Text) : Chain String :=
  if w = ascii "PREROUTING" then .builtin .prerouting
  else if w = ascii "INPUT" then .builtin .input
  else if w = ascii "OUTPUT" then .builtin .output
  else if w = ascii "POSTROUTING" then .builtin .postrouting
  else .user (stringOf w)

def port (w : Text) : Option ℤ :=
  if w ≠ [] ∧ w.all isDigit = true ∧ value w ≤ 65535 then some (value w) else none

structure Args where
  table : Bool
  verb : Option (Verb × Text)
  inInterface : Option String
  destination : Option String
  protocol : Option Proto
  dport : Option ℤ
  target : Option Target
  toPorts : Option ℤ
  toDestination : Option String

def Args.start : Args := ⟨false, none, none, none, none, none, none, none, none⟩

section
-- whether a destination can be resolved
variable (resolves : String → Bool)

/-- The options of a protocol and of a target are only known behind it. -/
def Args.set (a : Args) : Opt → Text → Option Args
  | .table, w => if w = ascii "nat" then some { a with table := true } else none
  | .verb v, w => if a.verb = none then some { a with verb := some (v, w) } else none
  | .inInterface, w =>
    if nameFits (stringOf w) then some { a with inInterface := some (stringOf w) } else none
  | .destination, w =>
    if destFits resolves (stringOf w) then some { a with destination := some (stringOf w) } else none
  | .protocol, w => (protoOf w).map fun p => { a with protocol := some p }
  | .extension, w => if a.protocol ≠ none ∧ a.protocol = protoOf w then some a else none
  | .dport, w =>
    if a.protocol ≠ none then (port w).map fun n => { a with dport := some n } else none
  | .jump, w => some { a with target := some (targetOf w) }
  | .toPorts, w =>
    if a.target = some .redirect then (port w).map fun n => { a with toPorts := some n } else none
  | .toDestination, w =>
    if a.target = some .dnat then some { a with toDestination := some (stringOf w) } else none

def readArgs : List Text → Args → Option Args
  | [], a => some a
  | [_], _ => none
  | k::w::ws, a => (optOf k).bind fun o => (a.set resolves o w).bind (readArgs ws)

/-- The rules of which this development speaks. -/
def Args.rule (a : Args) : Option FwRule := do
  match ← a.target with
  | .redirect => some ⟨.redirect a.inInterface a.destination (← a.protocol) (← a.dport) (← a.toPorts), none⟩
  | .dnat =>
    if a.inInterface = none ∧ a.destination = none then
      some ⟨.dnat (← a.protocol) (← a.dport) (← a.toDestination), none⟩
    else none
  | .chain c =>
    if a.inInterface = none ∧ a.destination = none ∧ a.protocol = none then some (jump c) else none

def Args.command (a : Args) : Option FwCommand := do
  let (v, w) ← a.verb
  if a.table = false then none
  else match v with
    | .new => some (.new (stringOf w))
    | .append => some (.append (chainOf w) (← a.rule))
    | .insert => some (.insert (chainOf w) (← a.rule))
    | .flush => some (.flush (chainOf w))
    | .delete => some (.delete (stringOf w))

/-- The shell looks for a program under the first word. -/
def commandOf : List Text → Option FwCommand
  | [] => none
  | name::args =>
    if name = ascii "iptables" then (readArgs resolves args Args.start).bind Args.command else none

/-- `none` where no text is printed, or one that leads to no command. -/
def understood (format : Option Text) : Option FwCommand :=
  ((format.bind iptablesDoCommand).bind shellWords).bind (commandOf resolves)

def shellRun (t : Firewall) (texts : List (Option Text)) : Firewall :=
  texts.foldl (fun t text => (understood resolves text).elim t (execute t)) t

/-! ## What is refused -/

/-- The text leads to the command, unless that is refused. -/
def LeadsTo (text : Option Text) (cmd : FwCommand) : Prop :=
  understood resolves text = if accepts resolves cmd then some cmd else none

def IsPlain (s : Text) : Prop := ∀ c ∈ s, isPlain c = true

def Printable (s : Text) : Prop := ∀ c ∈ s, c = blank ∨ isPlain c = true

variable {resolves}

theorem Printable.append {s t : Text} (hs : Printable s) (ht : Printable t) : Printable (s ++ t) :=
  fun c hc => (List.mem_append.mp hc).elim (hs c) (ht c)

theorem Printable.blank_cons {s : Text} (hs : Printable s) : Printable (blank::s) :=
  List.forall_mem_cons.mpr ⟨.inl rfl, hs⟩

theorem IsPlain.printable {s : Text} (hs : IsPlain s) : Printable s := fun c hc => .inr (hs c hc)

theorem printable_of_all (s : Text) (h : s.all (fun c => c = blank ∨ isPlain c = true) = true) :
    Printable s := fun c hc => of_decide_eq_true (List.all_eq_true.mp h c hc)

theorem Printable.no_percent {s : Text} (hs : Printable s) : percent ∉ s :=
  fun hm => (hs percent hm).elim (by decide) (by decide)

theorem words_plain {s : Text} (hs : IsPlain s) (hn : s ≠ []) : words (· = blank) s = [s] := by
  apply words_word _ s hn
  intro c hc
  have hp := hs c hc
  apply decide_eq_false
  rintro rfl
  exact absurd hp (by decide)

theorem understood_words {s : Text} (hs : Printable s) : understood resolves (some s) =
    (readArgs resolves (words (· = blank) s) Args.start).bind Args.command := by
  have hformat : ascii "iptables %s" = ascii "iptables " ++ percent::0x73::[] := by decide
  have hcmd : iptablesDoCommand s = some (ascii "iptables " ++ s) := by
    rw [iptablesDoCommand, asprintf_self s hs.no_percent, Option.bind_some, hformat,
      asprintf_append _ _ (by decide), asprintf_str, asprintf, Option.map_some, Option.map_some,
      List.append_nil]
  have hwords : shellWords (ascii "iptables " ++ s) = some (ascii "iptables"::words (· = blank) s) := by
    have hsplit : ascii "iptables " ++ s = ascii "iptables" ++ blank::s := by
      rw [show ascii "iptables " = ascii "iptables" ++ [blank] by decide, List.append_assoc]
      rfl
    have hall : Printable (ascii "iptables " ++ s) := (printable_of_all _ (by decide)).append hs
    rw [shellWords, if_pos (List.all_eq_true.mpr fun c hc => decide_eq_true (hall c hc)), hsplit,
      words_break _ _ blank s (by decide)]
    rfl
  rw [understood, Option.bind_some, hcmd, Option.bind_some, hwords, Option.bind_some, commandOf, if_pos rfl]

theorem isPlain_digit {c : UInt8} (h : isDigit c = true) : isPlain c = true := by
  apply decide_eq_true
  exact .inl h

theorem decimal_plain (n : ℤ) : IsPlain (decimal n) := by
  intro c hc
  rcases decimal_octet n c hc with rfl | hd
  · decide
  · exact isPlain_digit hd

theorem port_decimal (n : ℤ) : port (decimal n) = if portFits n then some n else none := by
  cases n with
  | ofNat n =>
    have hall : (digits n).all isDigit = true := List.all_eq_true.mpr (digits_all n)
    have hfits : portFits (Int.ofNat n) = true ↔ n ≤ 65535 := by
      rw [portFits, decide_eq_true_eq]
      exact ⟨fun h => Int.ofNat_le.mp h.2, fun h => ⟨Int.natCast_nonneg n, Int.ofNat_le.mpr h⟩⟩
    rw [decimal, port, DottedQuad.value_digits]
    apply if_congr _ rfl rfl
    rw [hfits]
    exact ⟨fun h => h.2.2, fun h => ⟨digits_ne_nil n, hall, h⟩⟩
  | negSucc n =>
    have hfits : portFits (Int.negSucc n) = false := decide_eq_false fun h => by omega
    rw [hfits, if_neg Bool.false_ne_true]
    exact if_neg fun h => absurd h.2.1 (by simp [decimal, isDigit])

/-! ## One text after the other -/

theorem asprintf_two (a b i : Text) (ha : percent ∉ a) (hb : percent ∉ b) (n : ℤ) :
    asprintf (a ++ blank::percent::0x73::(b ++ [blank, percent, 0x64])) [.str i, .int n] =
      some (a ++ blank::(i ++ (b ++ blank::decimal n))) := by
  rw [asprintf_append a _ ha, asprintf_cons blank (by decide), asprintf_str, asprintf_append b _ hb,
    asprintf_cons blank (by decide), asprintf_int, asprintf]
  simp only [Option.map_some, List.append_nil]

theorem asprintf_one (a b : Text) (ha : percent ∉ a) (hb : percent ∉ b) (n : ℤ) :
    asprintf (a ++ blank::percent::0x64::b) [.int n] = some (a ++ blank::(decimal n ++ b)) := by
  rw [asprintf_append a _ ha, asprintf_cons blank (by decide), asprintf_int, asprintf_self b hb]
  rfl

theorem words_two (a b : Text) {i : Text} (hi : IsPlain i) (n : ℤ) :
    words (· = blank) (a ++ blank::(i ++ (blank::b ++ blank::decimal n))) =
      words (· = blank) a ++ ((if i = [] then [] else [i]) ++ (words (· = blank) b ++ [decimal n])) := by
  have hname : words (· = blank) i = if i = [] then [] else [i] := by
    by_cases h : i = []
    · rw [if_pos h, h]
      rfl
    · rw [if_neg h, words_plain hi h]
  rw [words_break _ a blank _ (by decide), List.cons_append, words_break _ i blank _ (by decide),
    words_break _ b blank _ (by decide), words_plain (decimal_plain n) (decimal_word n).nonempty, hname]

theorem leadsTo_two (a b : Text) (front back : List Text) (fits : String → Bool)
    (cmd : String → ℤ → FwCommand) (ha : Printable a) (hb : Printable b)
    (hfront : words (· = blank) a = front) (hback : words (· = blank) b = back)
    (hread : ∀ i w, (readArgs resolves (front ++ ([i] ++ (back ++ [w]))) Args.start).bind Args.command =
      if fits (stringOf i) then (port w).map (cmd (stringOf i)) else none)
    (hnone : ∀ w, readArgs resolves (front ++ (back ++ [w])) Args.start = none) (hempty : fits "" = false)
    (haccepts : ∀ i n, accepts resolves (cmd i n) = (fits i && portFits n))
    {i : Text} (hi : IsPlain i) (n : ℤ) :
    LeadsTo resolves (asprintf (a ++ blank::percent::0x73::(blank::b ++ [blank, percent, 0x64]))
      [.str i, .int n]) (cmd (stringOf i) n) := by
  have hprint : Printable (a ++ blank::(i ++ (blank::b ++ blank::decimal n))) :=
    ha.append (hi.printable.append (hb.blank_cons.append (decimal_plain n).printable.blank_cons)).blank_cons
  rw [LeadsTo, asprintf_two a (blank::b) i ha.no_percent hb.blank_cons.no_percent, understood_words hprint,
    words_two a b hi n, hfront, hback, haccepts]
  by_cases h : i = []
  · subst h
    rw [if_pos rfl, List.nil_append, hnone, show stringOf [] = "" from rfl, hempty]
    rfl
  · rw [if_neg h, hread, port_decimal]
    cases fits (stringOf i) <;> cases portFits n <;> rfl

theorem leadsTo_one (a b : Text) (front back : List Text) (cmd : ℤ → FwCommand) (ha : Printable a)
    (hb : Printable b) (hfront : words (· = blank) a = front) (hback : words (· = blank) b = back)
    (hread : ∀ w, (readArgs resolves (front ++ ([w] ++ back)) Args.start).bind Args.command =
      (port w).map cmd)
    (haccepts : ∀ n, accepts resolves (cmd n) = portFits n) (n : ℤ) :
    LeadsTo resolves (asprintf (a ++ blank::percent::0x64::blank::b) [.int n]) (cmd n) := by
  have hprint : Printable (a ++ blank::(decimal n ++ blank::b)) :=
    ha.append ((decimal_plain n).printable.append hb.blank_cons).blank_cons
  rw [LeadsTo, asprintf_one a (blank::b) ha.no_percent hb.blank_cons.no_percent, understood_words hprint,
    words_break _ a blank _ (by decide), words_break _ (decimal n) blank _ (by decide),
    words_plain (decimal_plain n) (decimal_word n).nonempty, hfront, hback, hread, haccepts, port_decimal]
  cases portFits n <;> rfl

def dnsFront : List Text := [ascii "-t", ascii "nat", ascii "-I", ascii chainPrerouting, ascii "-i"]

def protoText : Proto → Text
  | .udp => ascii "udp"
  | .tcp => ascii "tcp"

def dnsBack (p : Proto) : List Text :=
  [ascii "-p", protoText p, ascii "-m", protoText p, ascii "--dport", ascii "53", ascii "-j",
    ascii "REDIRECT", ascii "--to-ports"]

theorem read_dns (p : Proto) (i w : Text) :
    (readArgs resolves (dnsFront ++ ([i] ++ (dnsBack p ++ [w]))) Args.start).bind Args.command =
      if nameFits (stringOf i) then
        (port w).map fun n => .insert (.user chainPrerouting) (dnsRedirect (stringOf i) n p)
      else none := by
  have hread : readArgs resolves (dnsFront ++ ([i] ++ (dnsBack p ++ [w]))) Args.start =
      (if nameFits (stringOf i) then
        some ⟨true, some (.insert, ascii chainPrerouting), some (stringOf i), none, none, none, none,
          none, none⟩ else none).bind (readArgs resolves (dnsBack p ++ [w])) := rfl
  have hback (i : Option String) : readArgs resolves (dnsBack p ++ [w])
      ⟨true, some (.insert, ascii chainPrerouting), i, none, none, none, none, none, none⟩ =
        ((port w).map fun n => ⟨true, some (.insert, ascii chainPrerouting), i, none, some p, some 53,
          some .redirect, some n, none⟩).bind (readArgs resolves []) := by
    cases p <;> rfl
  rw [hread]
  split_ifs with h
  · rw [Option.bind_some, hback]
    cases port w with
    | none => rfl
    | some n => rfl
  · rfl

/-- Without a name the option takes the next one for it. -/
theorem read_nameless (p : Proto) (w : Text) :
    readArgs resolves (dnsFront ++ (dnsBack p ++ [w])) Args.start = none := by
  cases p <;> rfl

theorem leadsTo_dns (p : Proto) (b format : Text) (hb : Printable b)
    (hback : words (· = blank) b = dnsBack p)
    (hformat : format = ascii " -t nat -I fasterconfig_prerouter -i" ++
      blank::percent::0x73::(blank::b ++ [blank, percent, 0x64]))
    {i : Text} (hi : IsPlain i) (n : ℤ) : LeadsTo resolves (asprintf format [.str i, .int n])
      (.insert (.user chainPrerouting) (dnsRedirect (stringOf i) n p)) := by
  rw [hformat]
  apply leadsTo_two _ b dnsFront (dnsBack p) nameFits
    (fun i n => .insert (.user chainPrerouting) (dnsRedirect i n p)) (printable_of_all _ (by decide)) hb
    (by decide +kernel) hback (read_dns p) (read_nameless p) (by decide) _ hi n
  intro i n
  simp [accepts, dnsRedirect, specFits, portFits]

def httpFront : List Text := [ascii "-t", ascii "nat", ascii "-A", ascii chainPrerouting, ascii "-d"]

def httpBack : List Text :=
  [ascii "-p", ascii "tcp", ascii "--dport", ascii "80", ascii "-j", ascii "REDIRECT", ascii "--to-ports"]

theorem read_http (i w : Text) :
    (readArgs resolves (httpFront ++ ([i] ++ (httpBack ++ [w]))) Args.start).bind Args.command =
      if destFits resolves (stringOf i) then
        (port w).map fun n => .append (.user chainPrerouting) (httpRedirect (stringOf i) n)
      else none := by
  have hread : readArgs resolves (httpFront ++ ([i] ++ (httpBack ++ [w]))) Args.start =
      (if destFits resolves (stringOf i) then
        some ⟨true, some (.append, ascii chainPrerouting), none, some (stringOf i), none, none, none,
          none, none⟩ else none).bind (readArgs resolves (httpBack ++ [w])) := rfl
  have hback : readArgs resolves (httpBack ++ [w]) ⟨true, some (.append, ascii chainPrerouting), none,
      some (stringOf i), none, none, none, none, none⟩ =
        ((port w).map fun n => ⟨true, some (.append, ascii chainPrerouting), none, some (stringOf i),
          some .tcp, some 80, some .redirect, some n, none⟩).bind (readArgs resolves []) := rfl
  rw [hread]
  split_ifs with h
  · rw [Option.bind_some, hback]
    cases port w with
    | none => rfl
    | some n => rfl
  · rfl

theorem read_undestined (w : Text) : readArgs resolves (httpFront ++ (httpBack ++ [w])) Args.start = none := by
  have hread : readArgs resolves (httpFront ++ (httpBack ++ [w])) Args.start =
      (if destFits resolves (stringOf (ascii "-p")) then
        some ⟨true, some (.append, ascii chainPrerouting), none, some (stringOf (ascii "-p")), none, none,
          none, none, none⟩ else none).bind (readArgs resolves (httpBack.tail ++ [w])) := rfl
  rw [hread]
  split_ifs <;> rfl

theorem leadsTo_http (format : Text)
    (hformat : format = ascii " -t nat -A fasterconfig_prerouter  -d " ++ blank::percent::0x73::
      (blank::ascii " -p tcp --dport 80 -j REDIRECT --to-ports" ++ [blank, percent, 0x64]))
    {i : Text} (hi : IsPlain i) (n : ℤ) : LeadsTo resolves (asprintf format [.str i, .int n])
      (.append (.user chainPrerouting) (httpRedirect (stringOf i) n)) := by
  rw [hformat]
  apply leadsTo_two _ _ httpFront httpBack (destFits resolves)
    (fun i n => .append (.user chainPrerouting) (httpRedirect i n)) (printable_of_all _ (by decide))
    (printable_of_all _ (by decide)) (by decide +kernel) (by decide +kernel) read_http read_undestined
    (by simp [destFits]) _ hi n
  intro i n
  simp [accepts, httpRedirect, specFits, portFits]

def dnatFront (p : Proto) : List Text :=
  [ascii "-t", ascii "nat", ascii "-A", ascii chainOutgoing, ascii "-p", protoText p, ascii "--dport"]

def dnatBack : List Text := [ascii "-j", ascii "DNAT", ascii "--to", ascii "127.0.0.1:53"]

theorem read_dnat (p : Proto) (w : Text) :
    (readArgs resolves (dnatFront p ++ ([w] ++ dnatBack)) Args.start).bind Args.command =
      (port w).map fun n => .append (.user chainOutgoing) (dnsDnat n p) := by
  have hread : readArgs resolves (dnatFront p ++ ([w] ++ dnatBack)) Args.start =
      ((port w).map fun n => ⟨true, some (.append, ascii chainOutgoing), none, none, some p, some n, none,
        none, none⟩).bind (readArgs resolves dnatBack) := by
    cases p <;> rfl
  rw [hread]
  cases port w with
  | none => rfl
  | some n => rfl

theorem leadsTo_dnat (p : Proto) (a format : Text) (ha : Printable a)
    (hfront : words (· = blank) a = dnatFront p)
    (hformat : format = a ++ blank::percent::0x64::blank::ascii "-j DNAT --to 127.0.0.1:53") (n : ℤ) :
    LeadsTo resolves (asprintf format [.int n]) (.append (.user chainOutgoing) (dnsDnat n p)) := by
  rw [hformat]
  apply leadsTo_one a _ (dnatFront p) dnatBack (fun n => .append (.user chainOutgoing) (dnsDnat n p)) ha
    (printable_of_all _ (by decide)) hfront (by decide +kernel) (read_dnat p) _ n
  intro n
  rfl

/-! ## Whole runs -/

theorem pass_related {β γ : Type} {R : β → γ → Prop} {d r : List β} {d' r' : List γ}
    (hd : List.Forall₂ R d d') (hr : List.Forall₂ R r r') (f : Flags) (locked : Bool) :
    (f.pass d r locked).1 = (f.pass d' r' locked).1 ∧
      List.Forall₂ R (f.pass d r locked).2 (f.pass d' r' locked).2 := by
  simp only [Flags.pass]
  split_ifs
  all_goals first
    | exact ⟨rfl, List.rel_append hd hr⟩ | exact ⟨rfl, hd⟩ | exact ⟨rfl, hr⟩ | exact ⟨rfl, .nil⟩

theorem loopGives_related {β γ : Type} {R : β → γ → Prop} {d r : List β} {d' r' : List γ}
    (hd : List.Forall₂ R d d') (hr : List.Forall₂ R r r') (f : Flags) (obs : List Bool) :
    List.Forall₂ R (loopGives d r f obs) (loopGives d' r' f obs) := by
  induction obs generalizing f with
  | nil => exact .nil
  | cons o obs ih =>
    obtain ⟨hflags, hpass⟩ := pass_related hd hr f o
    rw [loopGives, loopGives, ← hflags]
    exact List.rel_append hpass (ih _)

theorem runGives_related {β γ : Type} {R : β → γ → Prop} {c d r : List β} {c' d' r' : List γ}
    (hc : List.Forall₂ R c c') (hd : List.Forall₂ R d d') (hr : List.Forall₂ R r r') (obs : List Bool) :
    List.Forall₂ R (runGives c d r obs) (runGives c' d' r' obs) :=
  List.rel_append hd (List.rel_append hc (loopGives_related hd hr _ obs))

theorem destroy_leads : List.Forall₂ (LeadsTo resolves) iptableDestroyRule destroyCommands :=
  .cons rfl (.cons rfl (.cons rfl (.cons rfl (.cons rfl (.cons rfl (.cons rfl (.cons rfl .nil)))))))

theorem create_leads : List.Forall₂ (LeadsTo resolves) iptabelSetNewChain createCommands :=
  .cons rfl (.cons rfl (.cons rfl (.cons rfl (.cons rfl (.cons rfl (.cons rfl (.cons rfl .nil)))))))

structure PlainFields (s : Fields) : Prop where
  apInterface : IsPlain (s.strs .apInterface)
  dnsIP : IsPlain (s.strs .dnsIP)

theorem redirect_leads (s : Fields) (hs : PlainFields s) :
    List.Forall₂ (LeadsTo resolves) (redirectTexts s) (redirectCommands (confOf s)) := by
  apply List.Forall₂.cons
  · exact leadsTo_dns .udp (ascii "-p udp -m udp --dport 53 -j REDIRECT --to-ports") _
      (printable_of_all _ (by decide)) (by decide +kernel) (by decide +kernel) hs.apInterface _
  apply List.Forall₂.cons
  · exact leadsTo_dns .tcp (ascii "-p tcp -m tcp --dport 53 -j REDIRECT --to-ports") _
      (printable_of_all _ (by decide)) (by decide +kernel) (by decide +kernel) hs.apInterface _
  apply List.Forall₂.cons
  · exact leadsTo_dnat .udp (ascii " -t nat -A fasterconfig_Outgoing -p udp --dport") _
      (printable_of_all _ (by decide)) (by decide +kernel) (by decide +kernel) _
  apply List.Forall₂.cons
  · exact leadsTo_dnat .tcp (ascii " -t nat -A fasterconfig_Outgoing -p tcp --dport") _
      (printable_of_all _ (by decide)) (by decide +kernel) (by decide +kernel) _
  apply List.Forall₂.cons
  · exact leadsTo_http _ (by decide +kernel) hs.dnsIP _
  · exact .nil

theorem sessionTexts_lead (s : Fields) (hs : PlainFields s) (obs : List Bool) :
    List.Forall₂ (LeadsTo resolves) (sessionTexts s obs) (sessionCommands ⟨confOf s, obs⟩) :=
  runGives_related create_leads destroy_leads (redirect_leads s hs) obs

theorem understood_leads (texts : List (Option Text)) (cmds : List FwCommand)
    (h : List.Forall₂ (LeadsTo resolves) texts cmds) :
    texts.filterMap (understood resolves) = cmds.filter (accepts resolves) := by
  induction h with
  | nil => rfl
  | @cons text cmd texts cmds hc _ ih =>
    rw [List.filterMap_cons, hc, List.filter_cons, ← ih]
    split_ifs <;> rfl

theorem shellRun_eq (t : Firewall) (texts : List (Option Text)) :
    shellRun resolves t texts = executeAll t (texts.filterMap (understood resolves)) := by
  induction texts generalizing t with
  | nil => rfl
  | cons text texts ih =>
    rw [shellRun, List.foldl_cons, ← shellRun, ih, List.filterMap_cons]
    cases understood resolves text with
    | none => rfl
    | some cmd => rfl

/-- A run does those of its commands that are not refused. -/
theorem shellRun_session (resolves : String → Bool) (s : Fields) (hs : PlainFields s) (obs : List Bool)
    (t : Firewall) :
    shellRun resolves t (sessionTexts s obs) =
      executeAll t ((sessionCommands ⟨confOf s, obs⟩).filter (accepts resolves)) := by
  rw [shellRun_eq, understood_leads _ _ (sessionTexts_lead s hs obs)]

def shellRuns (resolves : String → Bool) (t : Firewall) (past : List (Fields × List Bool)) : Firewall :=
  past.foldl (fun t r => shellRun resolves t (sessionTexts r.1 r.2)) t

def sessionOf (r : Fields × List Bool) : Session := ⟨confOf r.1, r.2⟩

theorem troubled_shell (t : Firewall) (past : List (Fields × List Bool)) (hp : ∀ r ∈ past, PlainFields r.1) :
    Troubled t (past.map sessionOf) (shellRuns resolves t past) := by
  induction past generalizing t with
  | nil => exact .start t
  | cons r past ih =>
    apply Troubled.run _ List.filter_sublist
    rw [shellRuns, List.foldl_cons, shellRun_session resolves r.1 (hp r List.mem_cons_self)]
    exact ih _ fun q hq => hp q (List.mem_cons_of_mem r hq)

abbrev FitsAll (resolves : String → Bool) (s : Fields) : Prop := Fits resolves (confOf s)

section
variable {α ρ : Type*} (k : Kernel α ρ)

theorem shell_fate (resolves : String → Bool) (t₀ : Firewall) (ht : Without t₀)
    (past : List (Fields × List Bool)) (hpast : ∀ r ∈ past, PlainFields r.1) (s : Fields)
    (hs : PlainFields s) (hf : FitsAll resolves s) (obs : List Bool) (h : Hook) (p : Packet α ρ)
    (e : End Verdict) :
    let t := shellRun resolves (shellRuns resolves t₀ past) (sessionTexts s obs)
    Walks (reading k) t p (t.builtin h.home) e ↔ ∃ x, Walks (reading k) t₀ p (t₀.builtin h.home) x ∧
      e = x.orElse (gateAfter k ⟨confOf s, obs⟩ p h) := by
  intro t
  have hrun : t = Session.run (shellRuns resolves t₀ past) ⟨confOf s, obs⟩ := by
    rw [run_commands, ← List.filter_eq_self.mpr (Fits.accepted hf obs)]
    exact shellRun_session resolves s hs obs _
  rw [hrun]
  exact (troubled_shell t₀ past hpast).fate k ht ⟨confOf s, obs⟩ h p e

/-- A run over its texts does those of its commands that are not refused, and where none is, the table
does with packets what the rules of the administrator do and behind them what the gate decides. What
was refused in earlier runs makes no difference. -/
theorem texts_carried_out (resolves : String → Bool) (t₀ : Firewall) (ht : Without t₀)
    (past : List (Fields × List Bool)) (hpast : ∀ r ∈ past, PlainFields r.1) (s : Fields)
    (hs : PlainFields s) (obs : List Bool) :
    let t := shellRun resolves (shellRuns resolves t₀ past) (sessionTexts s obs)
    t = executeAll (shellRuns resolves t₀ past)
        ((sessionCommands ⟨confOf s, obs⟩).filter (accepts resolves)) ∧
      (FitsAll resolves s → ∀ (h : Hook) (p : Packet α ρ) (e : End Verdict),
        Walks (reading k) t p (t.builtin h.home) e ↔ ∃ x, Walks (reading k) t₀ p (t₀.builtin h.home) x ∧
          e = x.orElse (gateAfter k ⟨confOf s, obs⟩ p h)) :=
  ⟨shellRun_session resolves s hs obs _, fun hf h p e =>
    shell_fate k resolves t₀ ht past hpast s hs hf obs h p e⟩

end

end

/-! ## The configuration that is shipped -/

def tetherFields (apInterface : Text) : Fields where
  ints | .dnsPort => 2048 | .HttpPort => 2049
  strs | .apInterface => apInterface | .dnsIP => ascii "172.31.255.240" | _ => []

theorem tetherFields_plain (apInterface : Text) (h : IsPlain apInterface) :
    PlainFields (tetherFields apInterface) :=
  ⟨h, List.all_eq_true.mp (show (ascii "172.31.255.240").all isPlain = true by decide)⟩

theorem overlong_plain :
    ∀ r ∈ [(tetherFields (ascii "tether-interface"), [true])], PlainFields r.1 := by
  intro r hr
  rw [List.mem_singleton.mp hr]
  exact tetherFields_plain _ (List.all_eq_true.mp (by decide))

theorem tether_texts_carried_out :
    let t := shellRun numeric (shellRuns numeric IptableRestart.emptyTable
      [(tetherFields (ascii "tether-interface"), [true])]) (sessionTexts (tetherFields (ascii "tether")) [true])
    Walks (reading plainKernel) t tetherQuery (t.builtin Hook.prerouting.home) (.verdict (.redirect 2048)) := by
  have hfits : FitsAll numeric (tetherFields (ascii "tether")) :=
    ⟨by decide +kernel, by decide +kernel, by decide, by decide⟩
  exact ((texts_carried_out plainKernel numeric IptableRestart.emptyTable IptableRestart.emptyTable_without
    _ overlong_plain (tetherFields (ascii "tether")) (tetherFields_plain _ (List.all_eq_true.mp (by decide))) [true]).2
    hfits .prerouting tetherQuery _).mpr ⟨.through, (walks_nil _ _ _ _).mpr rfl, by decide +kernel⟩

end FasterConfig.IptableTexts
