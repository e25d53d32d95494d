import FasterConfig.HttpdClient
import FasterConfig.HttpdRedirect

/-!
# Visits

A client that asks for a URL sends the lines of a request, and the server reads
the parts of the URL from them, cleaned. Unless the URL is the one of its page,
the client is led on, and the URL it is given holds the one it has asked for.
-/

set_option autoImplicit false

namespace FasterConfig.HttpdVisit
open FasterConfig.Strings FasterConfig.HttpdReadRequest FasterConfig.HttpdClient
open FasterConfig.HttpdHead FasterConfig.HttpdFraming FasterConfig.HttpdThread FasterConfig.HttpdRedirect
open FasterConfig.HttpdEscape (httpdEscape)
open FasterConfig.HttpdReceive (requestLines mem_readThrough)
open FasterConfig.HttpdBase64 (CredentialsFit)
open FasterConfig.HttpdRequest (httpMaxUrl questionMark readTarget readTarget_short)
open FasterConfig.HttpdResponse (Environment Inline urlFragment requestUrl redirectText redirectMessage
  start maxBuf)
open FasterConfig.HttpdDispatch (fasterconfig)
open FasterConfig.HttpdOutput (httpMaxLen)

local instance (priority := 10000) decidableText (p : UInt8 → Prop) [DecidablePred p] (s : Text) :
    Decidable (∀ c ∈ s, p c) := List.decidableBAll p s

theorem get_known : (requestMethod (ascii "GET")).isSome := by decide

theorem version_behind : ascii " HTTP/1.1" = [] ∨ ∃ t, ascii " HTTP/1.1" = blank::t :=
  .inr ⟨ascii "HTTP/1.1", rfl⟩

/-- The lines of a request for a URL. -/
structure Visit where
  line : RequestLine
  host : Text
  fields : List Text
  line_text : ∀ c ∈ line.text, 0x20 ≤ c ∧ c < 0x7f
  line_short : line.text.length < httpMaxLen
  host_text : ∀ c ∈ host, 0x20 ≤ c ∧ c < 0x7f
  host_short : host.length < httpMaxUrl
  fields_plain : ∀ l ∈ fields, IsField l

def Visit.lines (v : Visit) : List Text := v.line.text::(ascii "Host: " ++ v.host)::(v.fields ++ [[]])

def Visit.text (v : Visit) : Text := written v.lines

theorem text_append {s t : Text} (hs : ∀ c ∈ s, 0x20 ≤ c ∧ c < 0x7f)
    (ht : ∀ c ∈ t, 0x20 ≤ c ∧ c < 0x7f) : ∀ c ∈ s ++ t, 0x20 ≤ c ∧ c < 0x7f :=
  fun c hc => (List.mem_append.mp hc).elim (hs c) (ht c)

theorem Visit.lines_fit (v : Visit) :
    ∀ l ∈ v.lines, (∀ c ∈ l, 0x20 ≤ c ∧ c < 0x7f) ∧ l.length < httpMaxLen := by
  have h6 : (ascii "Host: ").length = 6 := by decide
  have hs := v.host_short
  intro l hm
  rcases List.mem_cons.mp hm with rfl | hm
  · exact ⟨v.line_text, v.line_short⟩
  rcases List.mem_cons.mp hm with rfl | hm
  · refine ⟨text_append (by decide) v.host_text, ?_⟩
    rw [httpMaxUrl] at hs
    rw [List.length_append, h6, httpMaxLen]
    omega
  rcases List.mem_append.mp hm with hm | hm
  · exact ⟨(v.fields_plain l hm).text, (v.fields_plain l hm).short⟩
  · rw [List.mem_singleton.mp hm]
    exact ⟨fun c hc => absurd hc List.not_mem_nil, by decide⟩

theorem Visit.requestLines_text (v : Visit) : requestLines v.text = v.lines := by
  apply streamLines_written httpMaxLen (by decide)
  · exact (length_written _).trans (Nat.le_succ _)
  · intro l hm
    rw [Int.ofNat_lt]
    exact v.lines_fit l hm

theorem Visit.host_nul (v : Visit) : 0 ∉ v.host := fun hm => absurd (v.host_text 0 hm).1 (by decide)

theorem Visit.request_read (v : Visit) (peer : Peer) (hp : peer.net.stream = v.text) :
    ∃ q, peer.request = some q ∧ q.host = v.host ∧ q.path = (readTarget v.line.target).path ∧
      q.query = (readTarget v.line.target).query ∧ q.vars = (readTarget v.line.target).vars := by
  obtain ⟨q, hq, hpath, hquery, hvars⟩ := httpdReadRequest_line peer.buf peer.authBuf v.line
    ((ascii "Host: " ++ v.host)::(v.fields ++ [[]]))
  have hread : peer.request = some q := by
    rw [Peer.request, hp, v.requestLines_text, Visit.lines, hq]
  refine ⟨q, hread, ?_, hpath, hquery, hvars⟩
  apply readRequest_host _ _ _ _ _ q hq v.host_nul v.host_short
  intro l hm
  rcases List.mem_append.mp hm with hm | hm
  · have hz : 0 ∉ l := fun h => absurd ((v.fields_plain l hm).text 0 h).1 (by decide)
    rw [cString_self l hz]
    exact (v.fields_plain l hm).other
  · rw [List.mem_singleton.mp hm]
    decide

theorem not_basic {text : Text} (h : hasKey authorizationKey text = false) : CredentialsFit text :=
  fun hb => absurd hb.1 (by rw [h]; decide)

theorem Visit.kept (v : Visit) (peer : Peer) (hp : peer.net.stream = v.text) : peer.Kept where
  lines line hl := by
    rw [hp, Visit.text, wholeLines_written v.lines fun l hm => (v.lines_fit l hm).1] at hl
    rcases List.mem_append.mp (mem_readThrough _ line hl) with hm | hm
    · exact (v.lines_fit line hm).2
    · rw [List.mem_singleton.mp hm]
      decide
  credentials _ text ht := by
    have hm := List.takeWhile_subset _ ht
    rw [hp, v.requestLines_text, Visit.lines, List.drop_one, List.tail_cons] at hm
    obtain ⟨l, hl, rfl⟩ := List.mem_map.mp hm
    rcases List.mem_cons.mp hl with rfl | hl
    · have hz : 0 ∉ ascii "Host: " ++ v.host := fun h =>
        (List.mem_append.mp h).elim (by decide) v.host_nul
      rw [cString_self _ hz]
      exact not_basic (hostLine_other v.host)
    rcases List.mem_append.mp hl with hl | hl
    · have hz : 0 ∉ l := fun h => absurd ((v.fields_plain l hl).text 0 h).1 (by decide)
      rw [cString_self l hz]
      exact (v.fields_plain l hl).credentials
    · rw [List.mem_singleton.mp hl]
      exact not_basic (by decide)

/-! ## What the client gets -/

/-- Where the client is led, as far as what it gets is settled. -/
def led (env : Environment) (startTime : ℤ) (clientAddr : Inline) (peer : Peer) : Option Text :=
  (threadHttpd env (start startTime) peer (.zeroed clientAddr)).output.bind location

theorem led_answer (env : Environment) (startTime : ℤ) (clientAddr : Inline) (peer : Peer)
    (hk : peer.Kept) (hf : AnswerFits env clientAddr peer.request) :
    led env startTime clientAddr peer =
      location (answer env clientAddr (firstWord peer.net.stream) peer.request) := by
  rw [led, (thread_output env startTime peer clientAddr _).mpr ⟨hk, hf, rfl⟩, Option.bind_some]

theorem led_url (env : Environment) (startTime : ℤ) (clientAddr : Inline) (peer : Peer) (url : Text)
    (h : led env startTime clientAddr peer = some url) :
    ∃ q, peer.request = some q ∧ url = (urlFragment env q clientAddr).take 969 := by
  obtain ⟨out, hout, hurl⟩ := Option.bind_eq_some_iff.mp h
  obtain ⟨-, -, rfl⟩ := (thread_output env startTime peer clientAddr out).mp hout
  cases hq : peer.request with
  | none =>
    rw [hq, answer, location_error] at hurl
    cases hurl
  | some q =>
    rw [hq, answer] at hurl
    refine ⟨q, rfl, ?_⟩
    cases hcut : strrchr slash (strncpy q.path httpMaxUrl) with
    | none =>
      simp only [hcut] at hurl
      cases hurl
    | some cut =>
      simp only [hcut] at hurl
      split_ifs at hurl
      · rw [location_page] at hurl
        cases hurl
      · rw [location_redirect env _ _ (newline_not_mem_urlFragment env q clientAddr)] at hurl
        exact (Option.some.inj hurl).symm

/-- Whatever the last part of the path is, the client is redirected unless it is the page. -/
theorem answer_redirect (env : Environment) (clientAddr : Inline) (word : Text) (q : HttpReq)
    (dir entry : Text) (hq : q.path = dir ++ slash::entry) (hs : slash ∉ entry) (hn : entry ≠ fasterconfig)
    (hl : q.path.length < httpMaxUrl) :
    (AnswerFits env clientAddr (some q) ↔ RedirectFits env q clientAddr) ∧
      answer env clientAddr word (some q) =
        pageText env redirectStatus [serverLine, locationLine (urlFragment env q clientAddr)]
          (redirectPage env q clientAddr) := by
  have hcut : strrchr slash (strncpy q.path httpMaxUrl) = some (dir, entry) := by
    rw [strncpy_short _ _ hl, hq, strrchr_append slash dir entry hs]
  have hshort : strncpy entry httpMaxUrl = entry := by
    apply strncpy_short
    rw [hq, List.length_append, List.length_cons] at hl
    omega
  simp only [AnswerFits, answer, hcut, hshort, if_neg hn, and_self]

/-! ## The URL of a visit -/

def Visit.url (v : Visit) : Text :=
  ascii "http://" ++ (v.host ++ ((readTarget v.line.target).path ++
    if (readTarget v.line.target).query = [] then [] else questionMark::(readTarget v.line.target).query))

theorem Visit.length_url (v : Visit) : v.url.length ≤ maxBuf-2 := by
  have hhost := v.host_short
  obtain ⟨hpath, hquery⟩ := readTarget_short v.line.target
  have h7 : (ascii "http://").length = 7 := by decide
  rw [httpMaxUrl] at hhost hpath hquery
  rw [Visit.url, List.length_append, List.length_append, List.length_append, h7, maxBuf]
  split_ifs
  · rw [List.length_nil]
    omega
  · rw [List.length_cons]
    omega

theorem Visit.requestUrl_read (v : Visit) (q : HttpReq) (hhost : q.host = v.host)
    (hpath : q.path = (readTarget v.line.target).path)
    (hquery : q.query = (readTarget v.line.target).query) : requestUrl q = v.url := by
  have hurl : ascii "http://" ++ q.host ++ q.path ++ (if q.query = [] then [] else [questionMark]) ++
      q.query = v.url := by
    rw [hhost, hpath, hquery, Visit.url]
    by_cases hx : (readTarget v.line.target).query = [] <;> simp [hx]
  rw [requestUrl, hurl, List.take_of_length_le v.length_url]

/-- As the client has written it. -/
def Visit.asked (v : Visit) : Text := ascii "http://" ++ (v.host ++ v.line.target)

/-- There is nothing to be cleaned in what it asks for, and no lone question mark behind it. -/
structure Visit.Tidy (v : Visit) : Prop where
  free : ∀ n ≤ 2, HttpdSanitise.Free n v.line.target
  asks : v.line.query ≠ some []

theorem Visit.url_asked (v : Visit) (h : v.Tidy) : v.url = v.asked := by
  have hshort : strncpy v.line.target httpMaxUrl = v.line.target := strncpy_short _ _ v.line.short
  rw [Visit.url, Visit.asked, readTarget, hshort, HttpdSanitise.sanitiseUrl_of_free _ h.free]
  cases hq : v.line.query with
  | none =>
    have hplain := v.line.plain
    rw [target_none v.line hq, strchr_none _ _ hplain, if_pos rfl, List.append_nil]
  | some x =>
    have hx : x ≠ [] := fun he => h.asks (by rw [hq, he])
    have hl := v.line.short
    rw [show targetOf v.line.path v.line.query = v.line.target from rfl, target_some v.line x hq,
      List.length_append, List.length_cons] at hl
    rw [target_some v.line x hq, strchr_append _ _ _ v.line.plain]
    simp only [strncpy_short x httpMaxUrl (by omega), if_neg hx]

def Visit.Elsewhere (v : Visit) : Prop :=
  ∃ dir entry, (readTarget v.line.target).path = dir ++ slash::entry ∧ slash ∉ entry ∧ entry ≠ fasterconfig

def Visit.Fits (v : Visit) (env : Environment) (clientAddr : Inline) : Prop :=
  PageFits env (readTarget v.line.target).vars redirectText
    (redirectMessage (fragmentHead env clientAddr ++ httpdEscape v.url))

theorem Visit.redirect_fits (v : Visit) (env : Environment) (clientAddr : Inline) (q : HttpReq)
    (hhost : q.host = v.host) (hpath : q.path = (readTarget v.line.target).path)
    (hquery : q.query = (readTarget v.line.target).query)
    (hvars : q.vars = (readTarget v.line.target).vars) :
    RedirectFits env q clientAddr ↔ v.Fits env clientAddr := by
  rw [RedirectFits, redirectUrlMessage, urlFragment_eq, v.requestUrl_read q hhost hpath hquery, hvars,
    Visit.Fits]

theorem Visit.fits_of_redirect (v : Visit) (env : Environment) (clientAddr : Inline) (peer : Peer)
    (hp : peer.net.stream = v.text) (h : ∀ q, peer.request = some q → RedirectFits env q clientAddr) :
    v.Fits env clientAddr := by
  obtain ⟨q, hq, hhost, hpath, hquery, hvars⟩ := v.request_read peer hp
  exact (v.redirect_fits env clientAddr q hhost hpath hquery hvars).mp (h q hq)

/-- The client is led to the URL of the configuration with its own behind it. -/
theorem Visit.led_on (v : Visit) (hv : v.Elsewhere) (env : Environment) (startTime : ℤ)
    (clientAddr : Inline) (hf : v.Fits env clientAddr) (peer : Peer) (hp : peer.net.stream = v.text) :
    led env startTime clientAddr peer =
      some ((fragmentHead env clientAddr ++ httpdEscape v.url).take 969) := by
  obtain ⟨q, hq, hhost, hpath, hquery, hvars⟩ := v.request_read peer hp
  obtain ⟨dir, entry, hcut, hs, hn⟩ := hv
  have hurl : urlFragment env q clientAddr = fragmentHead env clientAddr ++ httpdEscape v.url := by
    rw [urlFragment_eq, v.requestUrl_read q hhost hpath hquery]
  have hlen : q.path.length < httpMaxUrl := hpath ▸ (readTarget_short v.line.target).1
  have hredirect := (v.redirect_fits env clientAddr q hhost hpath hquery hvars).mpr hf
  obtain ⟨hfits, hanswer⟩ := answer_redirect env clientAddr (firstWord peer.net.stream) q dir entry
    (hpath.trans hcut) hs hn hlen
  rw [led_answer env startTime clientAddr peer (v.kept peer hp) (hq ▸ hfits.mpr hredirect), hq, hanswer,
    location_redirect env _ _ (newline_not_mem_urlFragment env q clientAddr), hurl]

end FasterConfig.HttpdVisit
