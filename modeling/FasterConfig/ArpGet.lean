import FasterConfig.ConfigFile
import FasterConfig.DottedQuad
import FasterConfig.HttpdRedirect

/-!
# The ARP table

A row is scanned by words, its address and its hardware address with a limit
and a set of octets. What of the hardware address exceeds these counts as a
word of its own, so the last word of such a row is left over, and the search
takes it for the address of the next one. A row of whose hardware address
nothing can be read ends the search at once.
-/

set_option autoImplicit false

namespace FasterConfig.ArpGet
open FasterConfig.Strings
open FasterConfig.Cidr (isSpace isDigit)
open FasterConfig.ConfigFile (scanWord)
open FasterConfig.HttpdEscape (httpdEscape)
open FasterConfig.HttpdReadRequest (HttpReq)
open FasterConfig.HttpdResponse (newline Inline Environment decimal requestUrl urlFragment)
open FasterConfig.HttpdRedirect (fragmentHead urlFragment_eq)

/-! ## Conversions -/

/-- `%n[p]` -/
def scanSet (p : UInt8 → Bool) (n : ℕ) (s : Text) : Option (Text × Text) :=
  let m := (s.take n).takeWhile p
  if m = [] then none else some (m, s.drop m.length)

def skipSpace (s : Text) : Text := s.dropWhile isSpace

/-- `%*s`, at the end of the file or not. -/
def skipWord (s : Text) : Text := ((scanWord s).map Prod.snd).getD []

def isIp (c : UInt8) : Bool := isDigit c || c = 0x2e

def isMac (c : UInt8) : Bool :=
  (0x41 ≤ c ∧ c ≤ 0x46 : Bool) || (0x61 ≤ c ∧ c ≤ 0x66 : Bool) || isDigit c || c = 0x3a

/-- The address and the hardware address, and what is left behind the entry; a word that is
missing at its end does not matter. -/
def scanEntry (s : Text) : Option ((Text × Text) × Text) := do
  let (ip, s) ← scanSet isIp 15 (skipSpace s)
  let (_, s) ← scanWord s
  let (_, s) ← scanWord s
  let (mac, s) ← scanSet isMac 17 (skipSpace s)
  return ((ip, mac), skipWord (skipWord s))

theorem scanSet_length {p : UInt8 → Bool} {n : ℕ} {s m rest : Text}
    (h : scanSet p n s = some (m, rest)) : rest.length < s.length := by
  rw [scanSet] at h
  split_ifs at h with hm
  cases h
  have hpos := List.length_pos_of_ne_nil hm
  have hle := (List.takeWhile_prefix p (l := s.take n)).length_le
  rw [List.length_take] at hle
  rw [List.length_drop]
  omega

theorem scanWord_length {s w rest : Text} (h : scanWord s = some (w, rest)) :
    rest.length ≤ s.length := by
  rw [scanWord] at h
  split_ifs at h
  cases h
  exact (List.length_dropWhile_le _ _).trans (List.length_dropWhile_le _ _)

theorem skipWord_length (s : Text) : (skipWord s).length ≤ s.length := by
  rw [skipWord]
  cases h : scanWord s with
  | none => exact Nat.zero_le _
  | some r => exact scanWord_length h

theorem scanEntry_length {s rest : Text} {e : Text × Text} (h : scanEntry s = some (e, rest)) :
    rest.length < s.length := by
  simp only [scanEntry, Option.bind_eq_bind, Option.bind_eq_some_iff, Prod.exists] at h
  obtain ⟨ip, s1, h1, w2, s2, h2, w3, s3, h3, mac, s4, h4, h5⟩ := h
  cases h5
  have hs := List.length_dropWhile_le isSpace s
  have hs3 := List.length_dropWhile_le isSpace s3
  have hl1 := scanSet_length h1
  have hl2 := scanWord_length h2
  have hl3 := scanWord_length h3
  have hl4 := scanSet_length h4
  have hl5 := (skipWord_length (skipWord s4)).trans (skipWord_length s4)
  rw [skipSpace] at hl1 hl4
  omega

/-! ## The search -/

def search (req_ip : Text) (s : Text) : Option Text :=
  match _h : scanEntry s with
  | none => none
  | some ((ip, mac), rest) => if ip = req_ip then some mac else search req_ip rest
termination_by s.length
decreasing_by exact scanEntry_length _h

/-- `none` where `/proc/net/arp` cannot be opened. -/
def arpGet (proc : Option Text) (req_ip : Text) : Option Text :=
  proc.bind fun table => search req_ip ((table.dropWhile (· ≠ newline)).drop 1)

theorem search_eq (req_ip s : Text) :
    search req_ip s = (scanEntry s).bind fun e =>
      if e.1.1 = req_ip then some e.1.2 else search req_ip e.2 := by
  rw [search]
  split
  · next h => rw [h, Option.bind_none]
  · next h => rw [h, Option.bind_some]

/-! ## Rows -/

abbrev Word := { w : Text // w ≠ [] ∧ ∀ c ∈ w, isSpace c = false }

abbrev Gap := { g : Text // g ≠ [] ∧ ∀ c ∈ g, isSpace c = true }

/-- The part of a hardware address that is read. -/
def readable (hwAddress : Text) : Text := (hwAddress.take 17).takeWhile isMac

/-- A row with its six words, of which the hardware address may be empty; `gap i` stands behind
the word `i`. The mask is not taken for an empty hardware address, nor the device for an address. -/
structure Row where
  ip : Word
  hwType : Word
  flags : Word
  hwAddress : Text
  mask : Word
  device : Word
  gap : Fin 6 → Gap
  ip_set : ∀ c ∈ ip.val, isIp c = true
  ip_length : ip.val.length ≤ 15
  hwAddress_unbroken : ∀ c ∈ hwAddress, isSpace c = false
  mask_first : hwAddress = [] → ∀ c ∈ mask.val.head?, isMac c = false
  device_first : readable hwAddress ≠ hwAddress → ∀ c ∈ device.val.head?, isIp c = false

def Row.text (r : Row) : Text :=
  r.ip ++ (r.gap 0 ++ (r.hwType ++ (r.gap 1 ++ (r.flags ++ (r.gap 2 ++ (r.hwAddress ++
    (r.gap 3 ++ (r.mask ++ (r.gap 4 ++ (r.device ++ r.gap 5))))))))))

theorem skipSpace_gap (g : Gap) (s : Text) : skipSpace (g ++ s) = skipSpace s :=
  List.dropWhile_append_of_pos g.property.2

theorem skipSpace_word (w : Word) (s : Text) : skipSpace (w ++ s) = w ++ s := by
  obtain ⟨w, hn, hw⟩ := w
  cases w with
  | nil => exact absurd rfl hn
  | cons c w =>
    apply List.dropWhile_cons_of_neg
    rw [hw c List.mem_cons_self]
    decide

theorem gap_cons (g : Gap) : ∃ c t, g.val = c::t ∧ isSpace c = true := by
  obtain ⟨g, hn, hg⟩ := g
  cases g with
  | nil => exact absurd rfl hn
  | cons c t => exact ⟨c, t, rfl, hg c List.mem_cons_self⟩

theorem scanWord_skip (s : Text) : scanWord (skipSpace s) = scanWord s := by
  rw [scanWord, scanWord, skipSpace, List.dropWhile_idempotent]

theorem scanWord_word (w : Word) (g : Gap) (s : Text) :
    scanWord (w ++ (g ++ s)) = some (w.val, g ++ s) := by
  obtain ⟨c, t, hg, hc⟩ := gap_cons g
  have hskip := skipSpace_word w (g ++ s)
  have hword : ∀ c ∈ w.val, (!isSpace c) = true := fun c hc => by rw [w.property.2 c hc]; rfl
  rw [skipSpace] at hskip
  rw [scanWord, hskip, hg, List.cons_append, List.takeWhile_append_of_pos hword,
    List.dropWhile_append_of_pos hword, List.takeWhile_cons_of_neg (by simp [hc]),
    List.dropWhile_cons_of_neg (by simp [hc]), List.append_nil]
  exact if_neg fun h => w.property.1 (List.append_eq_nil_iff.mp h).1

theorem scanWord_gap (g : Gap) (w : Word) (g' : Gap) (s : Text) :
    scanWord (g ++ (w ++ (g' ++ s))) = some (w.val, g' ++ s) := by
  rw [← scanWord_skip, skipSpace_gap, scanWord_skip, scanWord_word]

theorem skipWord_gap (g : Gap) (w : Word) (g' : Gap) (s : Text) :
    skipWord (g ++ (w ++ (g' ++ s))) = g'.val ++ s := by
  rw [skipWord, scanWord_gap]
  rfl

theorem skipWord_word (w : Word) (g : Gap) (s : Text) : skipWord (w ++ (g ++ s)) = g.val ++ s := by
  rw [skipWord, scanWord_word]
  rfl

theorem scanSet_word (p : UInt8 → Bool) (n : ℕ) (hp : ∀ c, isSpace c = true → p c = false)
    (w : Text) (g : Gap) (s : Text) :
    scanSet p n (w ++ (g ++ s)) =
      if (w.take n).takeWhile p = [] then none
      else some ((w.take n).takeWhile p, w.drop ((w.take n).takeWhile p).length ++ (g ++ s)) := by
  obtain ⟨c, t, hg, hc⟩ := gap_cons g
  have htake : ((w ++ (g.val ++ s)).take n).takeWhile p = (w.take n).takeWhile p := by
    rw [← List.take_takeWhile, hg, List.cons_append, takeWhile_stop p (hp c hc), List.take_takeWhile]
  have hle : ((w.take n).takeWhile p).length ≤ w.length :=
    (List.takeWhile_prefix p).length_le.trans (List.length_take_le' n w)
  rw [scanSet, htake]
  simp only [List.drop_append_of_le_length hle]

theorem scanSet_first (p : UInt8 → Bool) (n : ℕ) (w : Word) (h : ∀ c ∈ w.val.head?, p c = false)
    (s : Text) : scanSet p n (w ++ s) = none := by
  obtain ⟨c, t, hw⟩ := List.exists_cons_of_ne_nil w.property.1
  have hc := h c (by rw [hw]; rfl)
  have htake : ((w.val ++ s).take n).takeWhile p = [] := by
    rw [hw, List.cons_append]
    cases n with
    | zero => rfl
    | succ n => rw [List.take_succ_cons, List.takeWhile_cons_of_neg (by simp [hc])]
  rw [scanSet, htake]
  exact if_pos rfl

theorem isIp_space (c : UInt8) : isSpace c = true → isIp c = false := by
  revert c
  exact octet_induction (by decide +kernel)

theorem isMac_space (c : UInt8) : isSpace c = true → isMac c = false := by
  revert c
  exact octet_induction (by decide +kernel)

theorem skip_hwAddress (r : Row) (s : Text) :
    skipWord (skipWord (r.hwAddress.drop (readable r.hwAddress).length ++
      (r.gap 3 ++ (r.mask ++ (r.gap 4 ++ (r.device ++ (r.gap 5 ++ s))))))) =
      if readable r.hwAddress = r.hwAddress then r.gap 5 ++ s
      else r.gap 4 ++ (r.device ++ (r.gap 5 ++ s)) := by
  have hfront : readable r.hwAddress <+: r.hwAddress :=
    (List.takeWhile_prefix isMac).trans (List.take_prefix 17 r.hwAddress)
  by_cases hl : readable r.hwAddress = r.hwAddress
  · rw [if_pos hl, hl, List.drop_length, List.nil_append, skipWord_gap, skipWord_gap]
  · have hne : r.hwAddress.drop (readable r.hwAddress).length ≠ [] := fun h =>
      hl (hfront.eq_of_length_le (List.drop_eq_nil_iff.mp h))
    have hword : ∀ c ∈ r.hwAddress.drop (readable r.hwAddress).length, isSpace c = false := fun c hc =>
      r.hwAddress_unbroken c (List.mem_of_mem_drop hc)
    rw [if_neg hl, skipWord_word ⟨_, hne, hword⟩, skipWord_gap]

theorem scanSet_ip (r : Row) (s : Text) :
    scanSet isIp 15 (r.ip ++ (r.gap 0 ++ s)) = some (r.ip.val, r.gap 0 ++ s) := by
  have hip : (r.ip.val.take 15).takeWhile isIp = r.ip.val := by
    rw [List.take_of_length_le r.ip_length]
    exact List.takeWhile_eq_self_iff.mpr r.ip_set
  rw [scanSet_word isIp 15 isIp_space, hip, if_neg r.ip.property.1, List.drop_length, List.nil_append]

theorem scanSet_hwAddress (r : Row) (s : Text) :
    scanSet isMac 17 (skipSpace (r.hwAddress ++ (r.gap 3 ++ (r.mask ++ s)))) =
      if readable r.hwAddress = [] then none
      else some (readable r.hwAddress,
        r.hwAddress.drop (readable r.hwAddress).length ++ (r.gap 3 ++ (r.mask ++ s))) := by
  by_cases he : r.hwAddress = []
  · have hmask := scanSet_first isMac 17 r.mask (r.mask_first he) s
    have hread : readable r.hwAddress = [] := by rw [he]; rfl
    rw [if_pos hread, he, List.nil_append, skipSpace_gap, skipSpace_word, hmask]
  · have hskip := skipSpace_word ⟨r.hwAddress, he, r.hwAddress_unbroken⟩ (r.gap 3 ++ (r.mask ++ s))
    rw [hskip]
    exact scanSet_word isMac 17 isMac_space r.hwAddress (r.gap 3) (r.mask ++ s)

theorem scanEntry_row (r : Row) (s : Text) :
    scanEntry (r.text ++ s) =
      if readable r.hwAddress = [] then none
      else some ((r.ip.val, readable r.hwAddress),
        if readable r.hwAddress = r.hwAddress then r.gap 5 ++ s
        else r.gap 4 ++ (r.device ++ (r.gap 5 ++ s))) := by
  simp only [scanEntry, Row.text, List.append_assoc, skipSpace_word, scanSet_ip, Option.bind_eq_bind,
    Option.bind_some, scanWord_gap, skipSpace_gap, scanSet_hwAddress]
  by_cases hr : readable r.hwAddress = []
  · rw [if_pos hr, if_pos hr, Option.bind_none]
  · rw [if_neg hr, if_neg hr, Option.bind_some, skip_hwAddress]
    rfl

theorem scanEntry_device (r : Row) (h : readable r.hwAddress ≠ r.hwAddress) (s : Text) :
    scanEntry (r.gap 4 ++ (r.device ++ s)) = none := by
  rw [scanEntry, skipSpace_gap, skipSpace_word, scanSet_first isIp 15 r.device (r.device_first h)]
  rfl

theorem search_gap (req_ip : Text) (g : Gap) (s : Text) : search req_ip (g ++ s) = search req_ip s := by
  rw [search_eq, search_eq req_ip s, scanEntry, scanEntry, skipSpace_gap]

/-! ## The table -/

/-- The rows that the search can come to: it does not go behind one whose hardware address cannot
be read to its end, and not into one of whose hardware address nothing can be read. -/
def visible : List Row → List Row
  | [] => []
  | r::rows =>
    if readable r.hwAddress = [] then []
    else r::if readable r.hwAddress = r.hwAddress then visible rows else []

/-- What can be read of the hardware address at the first such row with the address. -/
def lookup (rows : List Row) (req_ip : Text) : Option Text :=
  ((visible rows).find? fun r => r.ip.val = req_ip).map fun r => readable r.hwAddress

theorem search_rows (req_ip : Text) (rows : List Row) :
    search req_ip (rows.flatMap Row.text) = lookup rows req_ip := by
  induction rows with
  | nil =>
    rw [search_eq]
    rfl
  | cons r rows ih =>
    rw [List.flatMap_cons, search_eq, scanEntry_row, lookup, visible]
    by_cases hr : readable r.hwAddress = []
    · rw [if_pos hr, if_pos hr]
      rfl
    · rw [if_neg hr, if_neg hr, Option.bind_some, List.find?_cons]
      by_cases hip : r.ip.val = req_ip
      · simp only [if_pos hip, decide_eq_true hip]
        rfl
      · simp only [if_neg hip, decide_eq_false hip]
        by_cases hl : readable r.hwAddress = r.hwAddress
        · rw [if_pos hl, if_pos hl, search_gap, ih, lookup]
        · rw [if_neg hl, if_neg hl, search_eq, scanEntry_device r hl]
          rfl

theorem arpGet_table (header : Inline) (rows : List Row) (req_ip : Text) :
    arpGet (some (header ++ newline::rows.flatMap Row.text)) req_ip = lookup rows req_ip := by
  rw [← search_rows, arpGet, Option.bind_some, List.dropWhile_append_of_pos, List.dropWhile_cons_of_neg]
  · rfl
  · simp
  · exact fun c hc => decide_eq_true fun he => header.property (he ▸ hc)

local instance (priority := 10000) decidableText (p : UInt8 → Prop) [DecidablePred p] (s : Text) :
    Decidable (∀ c ∈ s, p c) := List.decidableBAll p s

local instance (priority := 10000) decidableFirst (p : UInt8 → Prop) [DecidablePred p]
    (s : Option UInt8) : Decidable (∀ c ∈ s, p c) := Option.decidableForallMem s

def ethernet : Row where
  ip := ⟨ascii "192.168.100.23", by decide⟩
  hwType := ⟨ascii "0x1", by decide⟩
  flags := ⟨ascii "0x2", by decide⟩
  hwAddress := ascii "2c:f7:f1:20:4a:9e"
  mask := ⟨ascii "*", by decide⟩
  device := ⟨ascii "tether", by decide⟩
  gap i := if i = 5 then ⟨[newline], by decide⟩ else ⟨ascii "   ", by decide⟩
  ip_set := by decide
  ip_length := by decide
  hwAddress_unbroken := by decide
  mask_first := fun _ => by decide
  device_first := fun _ => by decide

def infiniband : Row where
  ip := ⟨ascii "192.168.100.7", by decide⟩
  hwType := ⟨ascii "0x20", by decide⟩
  flags := ⟨ascii "0x2", by decide⟩
  hwAddress := ascii "80:00:02:08:fe:80:00:00:00"
  mask := ⟨ascii "*", by decide⟩
  device := ⟨ascii "ib0", by decide⟩
  gap i := if i = 5 then ⟨[newline], by decide⟩ else ⟨ascii "   ", by decide⟩
  ip_set := by decide
  ip_length := by decide
  hwAddress_unbroken := by decide
  mask_first := fun _ => by decide
  device_first := fun _ => by decide

/-- A station that is called by its name. -/
def packetRadio : Row where
  ip := ⟨ascii "44.128.0.1", by decide⟩
  hwType := ⟨ascii "0x3", by decide⟩
  flags := ⟨ascii "0x2", by decide⟩
  hwAddress := ascii "LINUX-1"
  mask := ⟨ascii "*", by decide⟩
  device := ⟨ascii "ax0", by decide⟩
  gap i := if i = 5 then ⟨[newline], by decide⟩ else ⟨ascii "   ", by decide⟩
  ip_set := by decide
  ip_length := by decide
  hwAddress_unbroken := by decide
  mask_first := fun _ => by decide
  device_first := fun _ => by decide

example : lookup [ethernet, infiniband] ethernet.ip = some (ascii "2c:f7:f1:20:4a:9e") := by decide

example : lookup [infiniband, ethernet] infiniband.ip = some (ascii "80:00:02:08:fe:80") := by decide

example : lookup [infiniband, ethernet] ethernet.ip = none := by decide

example : lookup [packetRadio, ethernet] packetRadio.ip = none := by decide

/-! ## In the URL of a redirection -/

theorem scanSet_set {p : UInt8 → Bool} {n : ℕ} {s m rest : Text} (h : scanSet p n s = some (m, rest)) :
    ∀ c ∈ m, p c = true := by
  rw [scanSet] at h
  split_ifs at h
  cases h
  exact fun c hc => List.mem_takeWhile_imp hc

theorem scanEntry_mac {s rest : Text} {e : Text × Text} (h : scanEntry s = some (e, rest)) :
    newline ∉ e.2 := by
  simp only [scanEntry, Option.bind_eq_bind, Option.bind_eq_some_iff, Prod.exists] at h
  obtain ⟨ip, s1, h1, w2, s2, h2, w3, s3, h3, mac, s4, h4, h5⟩ := h
  cases h5
  intro hm
  exact absurd (scanSet_set h4 newline hm) (by decide)

theorem search_mac (req_ip s mac : Text) (h : search req_ip s = some mac) : newline ∉ mac := by
  induction s using search.induct req_ip with
  | case1 s hs =>
    rw [search_eq, hs] at h
    cases h
  | case2 s mac' rest hs =>
    rw [search_eq, hs, Option.bind_some, if_pos rfl] at h
    cases h
    exact scanEntry_mac hs
  | case3 s ip mac' rest hs hip ih =>
    rw [search_eq, hs, Option.bind_some, if_neg hip] at h
    exact ih h

theorem arpGet_mac (proc : Option Text) (req_ip mac : Text) (h : arpGet proc req_ip = some mac) :
    newline ∉ mac := by
  obtain ⟨table, -, ht⟩ := Option.bind_eq_some_iff.mp h
  exact search_mac _ _ _ ht

def reading (env : Environment) (proc : Option Text) : Environment :=
  { env with
    arpGet := fun req_ip =>
      (arpGet proc req_ip).pmap (fun mac h => ⟨mac, h⟩) fun mac h => arpGet_mac proc req_ip mac h }

theorem elim_pmap (o : Option Text) (h : ∀ mac, o = some mac → newline ∉ mac) (f : Text → Text) :
    ((o.pmap (fun mac h => (⟨mac, h⟩ : Inline)) h).elim [] fun mac => f mac.val) = o.elim [] f := by
  cases o <;> rfl

theorem elim_reading (env : Environment) (proc : Option Text) (req_ip : Text) (f : Text → Text) :
    (((reading env proc).arpGet req_ip).elim [] fun mac => f mac.val) = (arpGet proc req_ip).elim [] f :=
  elim_pmap (arpGet proc req_ip) (fun mac h => arpGet_mac proc req_ip mac h) f

/-- The URL names what can be read of the hardware address at the first row with the client's
address, unless one that cannot be read to its end stands in front of it. -/
theorem redirect_mac (env : Environment) (header : Inline) (rows : List Row) (q : HttpReq)
    (clientAddr : Inline) :
    urlFragment (reading env (some (header ++ newline::rows.flatMap Row.text))) q clientAddr =
      env.htmlreurl ++ ascii "/?gw_address=" ++ env.gwAddress ++ ascii "&gw_port=" ++
        decimal env.gwPort ++ ascii "&ip=" ++ clientAddr ++
        ((lookup rows clientAddr).elim [] fun mac => ascii "&mac=" ++ mac) ++ ascii "&url=" ++
        httpdEscape (requestUrl q) := by
  rw [urlFragment_eq, fragmentHead, elim_reading env _ _ (ascii "&mac=" ++ ·), arpGet_table]
  rfl

end FasterConfig.ArpGet
