import FasterConfig.HttpdVisit
import FasterConfig.Settling

/-!
# Following redirections

A redirection always leads to a path that ends in a slash, and under such a
path the server has no page. A client that is led back to the server is
redirected again for as long as it follows and the pages have room. Each URL
carries the one before it in escaped form and is cut to the room of its header
line, so that it moves out of sight: after some redirections it is the same one
over and over.
-/

set_option autoImplicit false

namespace FasterConfig.RedirectLoop
open FasterConfig.Strings FasterConfig.HttpdReadRequest FasterConfig.Settling FasterConfig.HttpdClient
open FasterConfig.HttpdVisit FasterConfig.HttpdFraming FasterConfig.HttpdThread FasterConfig.HttpdRedirect
open FasterConfig.HttpdEscape (httpdEscape escapeChar)
open FasterConfig.HttpdRequest (httpMaxUrl questionMark httpdSanitiseUrl)
open FasterConfig.HttpdResponse (Environment Inline decimal redirectText redirectMessage urlFragment
  requestUrl maxBuf)
open FasterConfig.HttpdOutput (httpMaxLen)

local instance (priority := 10000) decidableText (p : UInt8 → Prop) [DecidablePred p] (s : Text) :
    Decidable (∀ c ∈ s, p c) := List.decidableBAll p s

local instance (priority := 10000) decidableFirst (p : UInt8 → Prop) [DecidablePred p]
    (s : Option UInt8) : Decidable (∀ c ∈ s, p c) := Option.decidableForallMem s

/-! ## A server that redirections lead to -/

/-- Printable, and neither the end of a part of a URL nor a slash. -/
def inUrl (c : UInt8) : Bool :=
  0x20 < c ∧ c < 0x7f ∧ c ≠ slash ∧ c ≠ questionMark ∧ c ≠ 0x23

/-- The URL of the configuration has a host and a path, and its header line has room for more;
the addresses hold nothing that ends a query. -/
structure Portal (env : Environment) (clientAddr : Inline) where
  host : Text
  path : Text
  reUrl : env.htmlreurl.val = ascii "http://" ++ (host ++ path)
  host_text : ∀ c ∈ host, inUrl c = true
  path_first : ∀ c ∈ path.head?, c = slash
  path_text : ∀ c ∈ path, inUrl c = true ∨ c = slash
  gwAddress_text : ∀ c ∈ env.gwAddress.val, inUrl c = true
  clientAddr_text : ∀ c ∈ clientAddr.val, inUrl c = true
  mac_text : ∀ mac ∈ env.arpGet clientAddr, ∀ c ∈ mac.val, inUrl c = true
  short : env.htmlreurl.val.length < 967

variable {env : Environment} {clientAddr : Inline}

def leadsTo (env : Environment) (x : Text) : Text := env.htmlreurl ++ slash::questionMark::x

/-- What is left of a header line for the query. -/
def room (env : Environment) : ℕ := 967-env.htmlreurl.val.length

structure IsQuery (env : Environment) (x : Text) : Prop where
  nonempty : x ≠ []
  text : ∀ c ∈ x, inUrl c = true
  short : x.length ≤ room env

theorem inUrl_printable {c : UInt8} (h : inUrl c = true) : 0x20 < c ∧ c < 0x7f :=
  ⟨(of_decide_eq_true h).1, (of_decide_eq_true h).2.1⟩

theorem not_mem_inUrl {s : Text} (h : ∀ c ∈ s, inUrl c = true) (d : UInt8) (hd : inUrl d = false) :
    d ∉ s := by
  intro hm
  rw [h d hm] at hd
  cases hd

theorem Portal.reach_text (p : Portal env clientAddr) {x : Text} (hx : IsQuery env x) :
    ∀ c ∈ p.path ++ slash::questionMark::x, 0x20 < c ∧ c < 0x7f ∧ c ≠ 0x23 := by
  intro c hc
  have hin : ∀ d, inUrl d = true → 0x20 < d ∧ d < 0x7f ∧ d ≠ 0x23 := fun d hd =>
    ⟨(of_decide_eq_true hd).1, (of_decide_eq_true hd).2.1, (of_decide_eq_true hd).2.2.2.2⟩
  cases List.mem_append.mp hc with
  | inl hp =>
    cases p.path_text c hp with
    | inl hu => exact hin c hu
    | inr hs => rw [hs]; decide
  | inr hq =>
    cases List.mem_cons.mp hq with
    | inl hs => rw [hs]; decide
    | inr hq =>
      cases List.mem_cons.mp hq with
      | inl hm => rw [hm]; decide
      | inr hm => exact hin c (hx.text c hm)

theorem Portal.reach_first (p : Portal env clientAddr) (x : Text) :
    ∃ t, p.path ++ slash::x = slash::t := by
  have hfirst := p.path_first
  cases hp : p.path with
  | nil => exact ⟨x, rfl⟩
  | cons c t =>
    rw [hp] at hfirst
    exact ⟨t ++ slash::x, by rw [hfirst c rfl]; rfl⟩

theorem Portal.leadsTo_eq (p : Portal env clientAddr) (x : Text) :
    leadsTo env x = ascii "http://" ++ (p.host ++ (p.path ++ slash::questionMark::x)) := by
  rw [leadsTo, p.reUrl, List.append_assoc, List.append_assoc]

theorem Portal.length_reUrl (p : Portal env clientAddr) :
    p.host.length+p.path.length+7 = env.htmlreurl.val.length := by
  have hl := congrArg List.length p.reUrl
  rw [List.length_append, List.length_append] at hl
  have h7 : (ascii "http://").length = 7 := by decide
  omega

theorem Portal.urlHost_leadsTo (p : Portal env clientAddr) (x : Text) :
    urlHost (leadsTo env x) = p.host := by
  obtain ⟨t, ht⟩ := p.reach_first (questionMark::x)
  have hhost : ∀ c ∈ p.host, decide (c ≠ slash) = true := fun c hc =>
    decide_eq_true fun he => not_mem_inUrl p.host_text slash (by decide) (he ▸ hc)
  rw [urlHost, p.leadsTo_eq, List.drop_left' (by decide), List.takeWhile_append_of_pos hhost, ht,
    List.takeWhile_cons_of_neg (by simp), List.append_nil]

theorem Portal.urlTarget_leadsTo (p : Portal env clientAddr) {x : Text} (hx : IsQuery env x) :
    urlTarget (leadsTo env x) = p.path ++ slash::questionMark::x := by
  obtain ⟨t, ht⟩ := p.reach_first (questionMark::x)
  have hhost : ∀ c ∈ p.host, decide (c ≠ slash) = true := fun c hc =>
    decide_eq_true fun he => not_mem_inUrl p.host_text slash (by decide) (he ▸ hc)
  have htext := p.reach_text hx
  rw [urlTarget, p.leadsTo_eq, List.drop_left' (by decide), List.dropWhile_append_of_pos hhost]
  rw [ht] at htext ⊢
  rw [List.dropWhile_cons_of_neg (by simp), List.takeWhile_eq_self_iff]
  exact fun c hc => decide_eq_true (htext c hc).2.2

theorem Portal.path_plain (p : Portal env clientAddr) : questionMark ∉ p.path ++ [slash] := by
  intro hm
  cases List.mem_append.mp hm with
  | inl hp =>
    cases p.path_text _ hp with
    | inl hu => exact absurd hu (by decide)
    | inr hs => exact absurd hs (by decide)
  | inr hs => exact absurd (List.mem_singleton.mp hs) (by decide)

theorem Portal.target_printable (p : Portal env clientAddr) (x : Text) (hx : IsQuery env x) :
    ∀ c ∈ targetOf (p.path ++ [slash]) (some x), 0x20 < c ∧ c < 0x7f := by
  intro c hc
  have htext := p.reach_text hx c (by simpa [targetOf] using hc)
  exact ⟨htext.1, htext.2.1⟩

theorem Portal.target_nonempty (p : Portal env clientAddr) (x : Text) :
    targetOf (p.path ++ [slash]) (some x) ≠ [] := by simp [targetOf]

theorem Portal.target_short (p : Portal env clientAddr) (x : Text) (hx : IsQuery env x) :
    (targetOf (p.path ++ [slash]) (some x)).length < httpMaxUrl := by
  have hl := p.length_reUrl
  have hs := p.short
  have hr := hx.short
  rw [room] at hr
  simp only [targetOf, Option.elim_some, List.length_append, List.length_cons, List.length_nil,
    httpMaxUrl]
  omega

def Portal.requestLine (p : Portal env clientAddr) (x : Text) (hx : IsQuery env x) : RequestLine where
  method := ascii "GET"
  path := p.path ++ [slash]
  query := some x
  behind := ascii " HTTP/1.1"
  known := get_known
  plain := p.path_plain
  printable := p.target_printable x hx
  nonempty := p.target_nonempty x
  short := p.target_short x hx
  ends := version_behind

theorem Portal.fetch_eq (p : Portal env clientAddr) {x : Text} (hx : IsQuery env x)
    (fields : List Text) : fetch fields (leadsTo env x) =
      written ((p.requestLine x hx).text::(ascii "Host: " ++ p.host)::(fields ++ [[]])) := by
  have hline : ascii "GET " ++ (urlTarget (leadsTo env x) ++ ascii " HTTP/1.1") =
      (p.requestLine x hx).text := by
    rw [p.urlTarget_leadsTo hx, RequestLine.text, RequestLine.target, targetOf]
    simp [Portal.requestLine, ascii, blank]
  rw [fetch, hline, hostLine, p.urlHost_leadsTo]

theorem Portal.requestLine_text (p : Portal env clientAddr) {x : Text} (hx : IsQuery env x) :
    (∀ c ∈ (p.requestLine x hx).text, 0x20 ≤ c ∧ c < 0x7f) ∧
      (p.requestLine x hx).text.length < httpMaxLen := by
  have htarget : ∀ c ∈ (p.requestLine x hx).target, 0x20 ≤ c ∧ c < 0x7f := fun c hc =>
    ⟨UInt8.le_of_lt ((p.requestLine x hx).printable c hc).1, ((p.requestLine x hx).printable c hc).2⟩
  have hshort := (p.requestLine x hx).short
  have hsplit : (p.requestLine x hx).text =
      ascii "GET " ++ ((p.requestLine x hx).target ++ ascii " HTTP/1.1") := rfl
  rw [hsplit]
  constructor
  · exact text_append (by decide) (text_append htarget (by decide))
  · have h4 : (ascii "GET ").length = 4 := by decide
    have h9 : (ascii " HTTP/1.1").length = 9 := by decide
    rw [httpMaxUrl] at hshort
    rw [List.length_append, List.length_append, h4, h9, httpMaxLen]
    change (p.requestLine x hx).target.length < 1024 at hshort
    omega

theorem cleanQuery {x : Text} (h : ∀ c ∈ x, inUrl c = true) : CleanQuery (some x) := by
  have hs := not_mem_inUrl h slash (by decide)
  rintro q ⟨⟩
  exact ⟨fun hi => hs (hi.subset (by simp)), fun hi => hs (hi.subset (by simp)),
    fun hi => hs (hi.subset (by simp))⟩

theorem Portal.host_length (p : Portal env clientAddr) : p.host.length < httpMaxUrl := by
  have hl := p.length_reUrl
  have hs := p.short
  rw [httpMaxUrl]
  omega

def Portal.visit (p : Portal env clientAddr) {x : Text} (hx : IsQuery env x) (fields : List Text)
    (hf : ∀ l ∈ fields, IsField l) : Visit where
  line := p.requestLine x hx
  host := p.host
  fields := fields
  line_text := (p.requestLine_text hx).1
  line_short := (p.requestLine_text hx).2
  host_text c hc :=
    ⟨UInt8.le_of_lt (inUrl_printable (p.host_text c hc)).1, (inUrl_printable (p.host_text c hc)).2⟩
  host_short := p.host_length
  fields_plain := hf

/-! ## The path ends in a slash -/

theorem getLast_cons {c : UInt8} {rest : Text} (hr : rest ≠ []) :
    (c::rest).getLast? = rest.getLast? := by
  rw [← List.singleton_append, List.getLast?_append_of_ne_nil _ hr]

/-- A sequence that is taken out ends in a slash that is read again. -/
theorem sweep_last (n : ℕ) (back : Bool) (dest : Text) (last : ℕ) (url : Text)
    (h : url.getLast? = some slash) : (HttpdSanitise.sweep n back dest last url).getLast? = some slash := by
  fun_induction HttpdSanitise.sweep n back dest last url with
  | case1 dest last => cases h
  | case2 dest last c rest hm ih =>
    have hlen : n < rest.length := by
      have hl := hm.2.length_le
      rw [HttpdSanitise.dots, List.length_append, List.length_replicate] at hl
      exact hl
    rw [getLast_cons (List.ne_nil_of_length_pos (Nat.zero_lt_of_lt hlen))] at h
    apply ih
    rw [List.getLast?_drop, if_neg (Nat.not_le_of_lt hlen), h]
  | case3 dest last c rest hm ih =>
    cases rest with
    | nil =>
      have hc : c = slash := Option.some.inj h
      rw [HttpdSanitise.sweep, List.getLast?_concat, hc]
    | cons d rest => exact ih (by rwa [getLast_cons (List.cons_ne_nil d rest)] at h)

theorem sanitise_last (path : Text) : ∃ s, httpdSanitiseUrl (path ++ [slash]) = s ++ [slash] := by
  have hlast : (httpdSanitiseUrl (path ++ [slash])).getLast? = some slash := by
    rw [HttpdSanitise.sanitiseUrl_sweeps]
    exact sweep_last _ _ _ _ _ (sweep_last _ _ _ _ _ (sweep_last _ _ _ _ _ List.getLast?_concat))
  exact ⟨_, (List.dropLast_append_getLast? slash hlast).symm⟩

/-! ## From one URL to the next -/

def params (env : Environment) (clientAddr : Inline) : Text :=
  ascii "gw_address=" ++ (env.gwAddress ++ (ascii "&gw_port=" ++ (decimal env.gwPort ++ (ascii "&ip=" ++
    (clientAddr ++ (((env.arpGet clientAddr).elim [] fun mac => ascii "&mac=" ++ mac.val) ++
      ascii "&url="))))))

theorem fragmentHead_eq (env : Environment) (clientAddr : Inline) :
    fragmentHead env clientAddr = leadsTo env (params env clientAddr) := by
  have hfirst : ascii "/?gw_address=" = slash::questionMark::ascii "gw_address=" := by decide
  simp only [fragmentHead, leadsTo, params, hfirst, List.append_assoc, List.cons_append]

def cutQuery (env : Environment) (clientAddr : Inline) (u : Text) : Text :=
  (params env clientAddr ++ httpdEscape u).take (room env)

theorem Portal.take_fragment (p : Portal env clientAddr) (u : Text) :
    (fragmentHead env clientAddr ++ httpdEscape u).take 969 = leadsTo env (cutQuery env clientAddr u) := by
  have hs := p.short
  have hlen : 969 = env.htmlreurl.val.length+(room env+2) := by rw [room]; omega
  rw [fragmentHead_eq, leadsTo, leadsTo, cutQuery, List.append_assoc, hlen, List.take_length_add_append]
  rfl

def Portal.front (p : Portal env clientAddr) : Text :=
  ascii "http://" ++ (p.host ++ (httpdSanitiseUrl (p.path ++ [slash]) ++ [questionMark]))

theorem Portal.readTarget_visit (p : Portal env clientAddr) {x : Text} (hx : IsQuery env x)
    (fields : List Text) (hf : ∀ l ∈ fields, IsField l) :
    (HttpdRequest.readTarget (p.visit hx fields hf).line.target).path = httpdSanitiseUrl (p.path ++ [slash]) ∧
      (HttpdRequest.readTarget (p.visit hx fields hf).line.target).query = x := by
  have hread := readTarget_clean (p.visit hx fields hf).line (cleanQuery hx.text)
  exact ⟨congrArg HttpdRequest.Request.path hread, congrArg HttpdRequest.Request.query hread⟩

theorem Portal.visit_url (p : Portal env clientAddr) {x : Text} (hx : IsQuery env x)
    (fields : List Text) (hf : ∀ l ∈ fields, IsField l) : (p.visit hx fields hf).url = p.front ++ x := by
  obtain ⟨hpath, hquery⟩ := p.readTarget_visit hx fields hf
  rw [Visit.url, hpath, hquery, if_neg hx.nonempty]
  simp only [Portal.visit, Portal.front, List.append_assoc, List.cons_append, List.nil_append]

theorem Portal.visit_elsewhere (p : Portal env clientAddr) {x : Text} (hx : IsQuery env x)
    (fields : List Text) (hf : ∀ l ∈ fields, IsField l) : (p.visit hx fields hf).Elsewhere := by
  obtain ⟨s, hs⟩ := sanitise_last p.path
  exact ⟨s, [], (p.readTarget_visit hx fields hf).1.trans hs, List.not_mem_nil, by decide⟩

def Portal.next (p : Portal env clientAddr) (x : Text) : Text := cutQuery env clientAddr (p.front ++ x)

theorem decimal_inUrl (v : ℤ) : ∀ c ∈ decimal v, inUrl c = true := by
  have hdigit : ∀ c, HttpdHead.isDigit c = true → inUrl c = true := octet_induction (by decide +kernel)
  cases v with
  | ofNat n => exact fun c hc => hdigit c (HttpdHead.digits_digit n c hc)
  | negSucc n =>
    intro c hc
    cases List.mem_cons.mp hc with
    | inl hm => rw [hm]; decide
    | inr hd => exact hdigit c (HttpdHead.digits_digit (n+1) c hd)

theorem inUrl_append {s t : Text} (hs : ∀ c ∈ s, inUrl c = true) (ht : ∀ c ∈ t, inUrl c = true) :
    ∀ c ∈ s ++ t, inUrl c = true :=
  fun c hc => (List.mem_append.mp hc).elim (hs c) (ht c)

theorem Portal.params_inUrl (p : Portal env clientAddr) :
    ∀ c ∈ params env clientAddr, inUrl c = true := by
  have hmac : ∀ c ∈ (env.arpGet clientAddr).elim [] fun mac => ascii "&mac=" ++ mac.val,
      inUrl c = true := by
    have htext := p.mac_text
    cases hm : env.arpGet clientAddr with
    | none => exact fun c hc => absurd hc List.not_mem_nil
    | some mac => exact inUrl_append (by decide) (htext mac hm)
  rw [params]
  apply inUrl_append (by decide)
  apply inUrl_append p.gwAddress_text
  apply inUrl_append (by decide)
  apply inUrl_append (decimal_inUrl env.gwPort)
  apply inUrl_append (by decide)
  apply inUrl_append p.clientAddr_text
  exact inUrl_append hmac (by decide)

theorem escape_inUrl (u : Text) : ∀ c ∈ httpdEscape u, inUrl c = true := by
  have hplain : ∀ c, HttpdUrlCodec.plain c = true → inUrl c = true := octet_induction (by decide +kernel)
  exact fun c hc => hplain c (HttpdUrlCodec.escape_plain u c hc)

theorem Portal.isQuery_cut (p : Portal env clientAddr) (u : Text) :
    IsQuery env (cutQuery env clientAddr u) where
  nonempty := by
    have hs := p.short
    have hroom : room env ≠ 0 := by rw [room]; omega
    have hparams : params env clientAddr ≠ [] := List.append_ne_nil_of_left_ne_nil (by decide) _
    simp [cutQuery, hroom, hparams]
  text := fun c hc => inUrl_append p.params_inUrl (escape_inUrl u) c (List.mem_of_mem_take hc)
  short := List.length_take_le _ _

/-! ## The walk -/

/-- Each client after the first asks for what the one before it was led to. -/
def Follows (env : Environment) (startTime : ℤ) (clientAddr : Inline) (peers : ℕ → Peer) : Prop :=
  ∀ n url, led env startTime clientAddr (peers n) = some url →
    ∃ fields, (∀ l ∈ fields, IsField l) ∧ (peers (n+1)).net.stream = fetch fields url

def Roomy (env : Environment) (clientAddr : Inline) (peers : ℕ → Peer) : Prop :=
  ∀ n q, (peers n).request = some q → RedirectFits env q clientAddr

theorem Portal.led_fetch (p : Portal env clientAddr) {x : Text} (hx : IsQuery env x)
    (startTime : ℤ) (peer : Peer) (hroom : ∀ q, peer.request = some q → RedirectFits env q clientAddr)
    (fields : List Text) (hf : ∀ l ∈ fields, IsField l)
    (hp : peer.net.stream = fetch fields (leadsTo env x)) :
    led env startTime clientAddr peer = some (leadsTo env (p.next x)) := by
  have hstream := hp.trans (p.fetch_eq hx fields)
  have hfits := (p.visit hx fields hf).fits_of_redirect env clientAddr peer hstream hroom
  rw [(p.visit hx fields hf).led_on (p.visit_elsewhere hx fields hf) env startTime clientAddr hfits peer
    hstream, p.visit_url hx fields hf, p.take_fragment, Portal.next]

theorem Portal.walk (p : Portal env clientAddr) (startTime : ℤ) (peers : ℕ → Peer)
    (hf : Follows env startTime clientAddr peers) (hroom : Roomy env clientAddr peers) (x : Text)
    (hx : IsQuery env x) (h0 : led env startTime clientAddr (peers 0) = some (leadsTo env x)) (n : ℕ) :
    led env startTime clientAddr (peers n) = some (leadsTo env (p.next^[n] x)) ∧
      IsQuery env (p.next^[n] x) := by
  induction n with
  | zero => exact ⟨h0, hx⟩
  | succ n ih =>
    obtain ⟨hloc, hquery⟩ := ih
    obtain ⟨fields, hfields, hfetch⟩ := hf n _ hloc
    rw [Function.iterate_succ_apply']
    exact ⟨p.led_fetch hquery startTime _ (hroom (n+1)) fields hfields hfetch, p.isQuery_cut _⟩

/-! ## Where it ends -/

theorem Portal.next_grows (p : Portal env clientAddr) :
    Grows p.next (p.front.length+(params env clientAddr).length) :=
  (grows_take (room env)).comp ((grows_append (params env clientAddr)).comp
    ((grows_flatMap escapeChar fun a => by rw [escapeChar]; split_ifs <;> exact List.cons_ne_nil _ _).comp
      (grows_append p.front)))

theorem Portal.gain (p : Portal env clientAddr) : 39 ≤ p.front.length+(params env clientAddr).length := by
  obtain ⟨s, hs⟩ := sanitise_last p.path
  have hdecimal : 0 < (decimal env.gwPort).length := by
    cases env.gwPort with
    | ofNat n => exact List.length_pos_of_ne_nil (by simp [decimal, HttpdResponse.digits])
    | negSucc n => exact Nat.succ_pos _
  have h7 : (ascii "http://").length = 7 := by decide
  have h11 : (ascii "gw_address=").length = 11 := by decide
  have h9 : (ascii "&gw_port=").length = 9 := by decide
  have h4 : (ascii "&ip=").length = 4 := by decide
  have h5 : (ascii "&url=").length = 5 := by decide
  simp only [Portal.front, params, hs, List.length_append, List.length_singleton, h7, h11, h9, h4, h5]
  omega

/-- The query of the URL that leads to itself. -/
def Portal.settled (p : Portal env clientAddr) : Text := p.next^[25] []

theorem Portal.settles (p : Portal env clientAddr) (n : ℕ) (hn : 25 ≤ n) (x : Text) :
    p.next^[n] x = p.settled := by
  have hg := p.gain
  have hcover : room env ≤ 25*(p.front.length+(params env clientAddr).length) := by
    rw [room]
    omega
  exact p.next_grows.settled (fun s => List.length_take_le _ _) (by decide) hcover n hn x []

theorem plain_roomy (q : HttpReq) (h : Short q) : RedirectFits plainEnvironment q localhost := by
  have hurl : (requestUrl q).length ≤ 3077 := by
    have hhost := h.host
    have hpath := h.path
    have hquery := h.query
    have h7 : (ascii "http://").length = 7 := by decide
    have hle := List.length_take_le' (maxBuf-2) (ascii "http://" ++ q.host ++ q.path ++
      (if q.query = [] then [] else [questionMark]) ++ q.query)
    rw [httpMaxUrl] at hhost hpath hquery
    rw [List.length_append, List.length_append, List.length_append, List.length_append, h7] at hle
    rw [requestUrl]
    split_ifs at hle ⊢ <;> simp only [List.length_nil, List.length_singleton] at hle <;> omega
  have hhead : (fragmentHead plainEnvironment localhost).length = 90 := by decide +kernel
  have hmessage : (redirectUrlMessage plainEnvironment q localhost).length ≤ 9500 := by
    have h16 : (ascii "Please <a href='").length = 16 := by decide
    have h17 : (ascii "'>click here</a>.").length = 17 := by decide
    have hescape := HttpdUrlCodec.length_escape (requestUrl q)
    have htriples := HttpdUrlCodec.unacceptable_le (requestUrl q)
    rw [redirectUrlMessage, redirectMessage, urlFragment_eq, List.length_append, List.length_append,
      List.length_append, h16, h17, hhead]
    omega
  have hvalues : ∀ name value, HttpdVariables.firstValue (HttpdPage.addPageVariables q.vars redirectText
      (redirectUrlMessage plainEnvironment q localhost)) name = some value → value.length ≤ 9500 := by
    intro name value hv
    rw [HttpdPage.firstValue_page, Option.or_eq_some_iff] at hv
    rcases hv with hv | ⟨-, hv⟩
    · have hlt := h.vars name value hv
      rw [httpMaxUrl] at hlt
      omega
    · rw [HttpdPage.pageValue] at hv
      split_ifs at hv <;> obtain rfl := Option.some.inj hv
      · decide
      · exact hmessage
      · decide
  have htemplate : cString plainEnvironment.template = ascii "$message\n" := by decide
  have hwidth := HttpdOutput.width_pieces_le _ 9500 hvalues 0 (ascii "$message\n")
  have hlength : (ascii "$message\n").length = 9 := by decide
  have hcount : (ascii "$message\n").count HttpdOutput.dollar = 1 := by decide
  rw [hlength, hcount] at hwidth
  rw [RedirectFits, PageFits, htemplate]
  refine ⟨by decide, ?_⟩
  rw [httpMaxLen]
  omega

def shippedPortal : Portal plainEnvironment localhost where
  host := ascii "192.168.100.1"
  path := ascii "/fasterconfig"
  reUrl := by decide
  host_text := by decide
  path_first := by decide
  path_text := by decide
  gwAddress_text := by decide
  clientAddr_text := by decide
  mac_text := fun _ h => nomatch h
  short := by decide

def browsers : ℕ → Peer
  | 0 => ⟨[], fun _ => 0, sending (fetch [] (leadsTo plainEnvironment [0x61]))⟩
  | n+1 => ⟨[], fun _ => 0, sending (fetch []
      ((led plainEnvironment 0 localhost (browsers n)).getD []))⟩

end FasterConfig.RedirectLoop
