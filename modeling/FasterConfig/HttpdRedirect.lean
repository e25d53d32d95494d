import FasterConfig.HttpdUrlCodec
import FasterConfig.HttpdFraming

/-!
# The URL of a redirection

A redirection is one URL in a header line and in the link of its page. What
the configuration and the addresses give stands in front; the client's host,
path and query follow in one escaped piece. That is enough for the line and
for the parameters of the URL, but the link is quoted with a character that
escaping leaves as it is.
-/

set_option autoImplicit false

namespace FasterConfig.HttpdRedirect
open FasterConfig.Strings
open FasterConfig.HttpdRequest (questionMark)
open FasterConfig.HttpdReadRequest (HttpReq)
open FasterConfig.HttpdEscape FasterConfig.HttpdUrlCodec
open FasterConfig.HttpdFraming (httpCallback404_page plainEnvironment localhost)
open FasterConfig.HttpdResponse (Environment Inline Request newline maxBuf decimal redirectText
  redirectMessage requestUrl urlFragment sendHttpPage httpCallback404)

def fragmentHead (env : Environment) (clientAddr : Inline) : Text :=
  env.htmlreurl ++ ascii "/?gw_address=" ++ env.gwAddress ++ ascii "&gw_port=" ++
    decimal env.gwPort ++ ascii "&ip=" ++ clientAddr ++
    ((env.arpGet clientAddr).elim [] fun mac => ascii "&mac=" ++ mac.val) ++ ascii "&url="

theorem urlFragment_eq (env : Environment) (q : HttpReq) (clientAddr : Inline) :
    urlFragment env q clientAddr =
      fragmentHead env clientAddr ++ httpdEscape (requestUrl q) := by
  rw [urlFragment, urlEncode_eq_escape, fragmentHead]

/-! ## In the header line -/

theorem plain_ne (c : UInt8) (h : plain c = true) (d : UInt8) (hd : plain d = false) : c ≠ d := by
  rintro rfl
  rw [h] at hd
  exact absurd hd (by decide)

theorem not_mem_escape (str : Text) (d : UInt8) (hd : plain d = false) : d ∉ httpdEscape str :=
  fun h => plain_ne d (escape_plain str d h) d hd rfl

theorem count_urlFragment (env : Environment) (q : HttpReq) (clientAddr : Inline) (d : UInt8)
    (hd : plain d = false) :
    (urlFragment env q clientAddr).count d = (fragmentHead env clientAddr).count d := by
  rw [urlFragment_eq, List.count_append, List.count_eq_zero_of_not_mem (not_mem_escape _ d hd),
    Nat.add_zero]

/-- The array is filled to its last place, the text is plain with its triples, and it can be
read back. So the client can neither end the line of the URL nor begin a parameter in it. -/
theorem escape_exact (str : Text) :
    (escapeInto str).writes = List.range (escapeSize str) ∧
      (escapeInto str).result = httpdEscape str ++ [0] ∧
      (∀ c ∈ httpdEscape str, plain c = true) ∧
      (∀ pre rest, httpdEscape str = pre ++ 0x25::rest →
        ∃ d e tail, rest = d::e::tail ∧ upperHex d = true ∧ upperHex e = true) ∧
      replaceTriples (httpdEscape str) = str ∧
      (∀ t, httpdEscape t = httpdEscape str → t = str) ∧
      ∀ env q clientAddr, newline ∉ ascii "Location: " ++ urlFragment env q clientAddr ∧
        ∀ d, plain d = false → (urlFragment env q clientAddr).count d =
          (fragmentHead env clientAddr).count d := by
  obtain ⟨hresult, hwrites⟩ := escapeInto_eq str
  refine ⟨hwrites, hresult, escape_plain str, escape_percent str, replaceTriples_escape str,
    fun t h => escape_injective h, ?_⟩
  intro env q clientAddr
  constructor
  · exact HttpdHead.newline_not_mem_append (by decide)
      (HttpdFraming.newline_not_mem_urlFragment env q clientAddr)
  · exact count_urlFragment env q clientAddr

/-! ## In the link -/

def quote : UInt8 := 0x27

/-- What a reader of the page takes for the address of the link. -/
def hrefValue (message : Text) : Text :=
  (message.drop (ascii "Please <a href='").length).takeWhile (· ≠ quote)

def Marks (c : UInt8) : Prop := c = quote ∨ c = 0x3c ∨ c = 0x3e

instance (c : UInt8) : Decidable (Marks c) := inferInstanceAs (Decidable (_ ∨ _))

/-- What the client has put into the URL, cut to the array it is printed into. -/
def requested (q : HttpReq) : Text :=
  (q.host ++ q.path ++ (if q.query = [] then [] else [questionMark]) ++ q.query).take (maxBuf-9)

theorem requestUrl_eq (q : HttpReq) : requestUrl q = ascii "http://" ++ requested q := by
  rw [requestUrl, requested, List.append_assoc, List.append_assoc, List.append_assoc,
    List.take_append, List.take_of_length_le (by decide), List.append_assoc, List.append_assoc]
  rfl

theorem marks_escapeChar (a c : UInt8) (h : c ∈ escapeChar a) (hc : Marks c) :
    a = quote ∧ c = quote := by
  have hall : ∀ a, (escapeChar a).all (fun c => ¬ Marks c ∨ (a = quote ∧ c = quote)) = true :=
    octet_induction (by decide +kernel)
  have ha := List.all_eq_true.mp (hall a) c h
  exact (of_decide_eq_true ha).resolve_left (not_not.mpr hc)

theorem quote_escape_iff (str : Text) : quote ∈ httpdEscape str ↔ quote ∈ str := by
  constructor
  · intro h
    obtain ⟨a, ha, hc⟩ := List.mem_flatMap.mp h
    exact (marks_escapeChar a quote hc (.inl rfl)).1 ▸ ha
  · exact fun h => List.mem_flatMap.mpr ⟨quote, h, by decide⟩

theorem marks_escape_iff (str : Text) : (∀ c ∈ httpdEscape str, ¬ Marks c) ↔ quote ∉ str := by
  constructor
  · exact fun h hm => h quote ((quote_escape_iff str).mpr hm) (.inl rfl)
  · intro h c hc hm
    obtain ⟨a, ha, hca⟩ := List.mem_flatMap.mp hc
    exact h ((marks_escapeChar a c hca hm).1 ▸ ha)

theorem quote_requestUrl (q : HttpReq) : quote ∉ requestUrl q ↔ quote ∉ requested q := by
  rw [requestUrl_eq, List.mem_append, or_iff_right (by decide)]

theorem hrefValue_iff (url : Text) : hrefValue (redirectMessage url) = url ↔ quote ∉ url := by
  have hm : hrefValue (redirectMessage url) =
      (url ++ quote::ascii ">click here</a>.").takeWhile (· ≠ quote) := by
    rw [hrefValue, redirectMessage, List.append_assoc, List.drop_left]
    rfl
  rw [hm]
  constructor
  · intro h hq
    rw [← h] at hq
    have hne := List.mem_takeWhile_imp hq
    simp at hne
  · intro h
    have hall : ∀ c ∈ url, decide (c ≠ quote) = true := fun c hc => decide_eq_true fun he => h (he ▸ hc)
    rw [List.takeWhile_append_of_pos hall, List.takeWhile_cons_of_neg (by simp), List.append_nil]

/-- The link of the redirection page carries the client's text between its quotes, and this
text has no quote and no angle bracket, exactly when the client sent no quote. -/
theorem redirect_link_iff (env : Environment) (r : Request) :
    (∃ redirected, httpCallback404 env r = sendHttpPage env redirectText
      (ascii "Please <a href='" ++
        (fragmentHead env r.clientAddr ++ httpdUrlEncode (requestUrl r.request)) ++
          ascii "'>click here</a>.") redirected) ∧
      ((∀ c ∈ httpdUrlEncode (requestUrl r.request), ¬ Marks c) ↔ quote ∉ requested r.request) ∧
      (quote ∉ fragmentHead env r.clientAddr →
        (hrefValue (redirectMessage (urlFragment env r.request r.clientAddr)) =
          urlFragment env r.request r.clientAddr ↔ quote ∉ requested r.request)) := by
  refine ⟨⟨_, httpCallback404_page env r⟩, ?_, ?_⟩
  · rw [urlEncode_eq_escape, marks_escape_iff, quote_requestUrl]
  · intro hh
    rw [hrefValue_iff, urlFragment_eq, List.mem_append, or_iff_right hh, quote_escape_iff,
      quote_requestUrl]

def asked (path : Text) : HttpReq := { HttpReq.fresh with path := path }

theorem redirect_link_plain :
    hrefValue (redirectMessage (urlFragment plainEnvironment (asked [0x2f, 0x78]) localhost)) =
      urlFragment plainEnvironment (asked [0x2f, 0x78]) localhost :=
  ((redirect_link_iff plainEnvironment (.read (asked [0x2f, 0x78]) [] localhost)).2.2
    (by decide +kernel)).mpr (by decide +kernel)

theorem redirect_link_quote :
    ¬ ∀ (env : Environment) (q : HttpReq), quote ∉ env.htmlreurl.val →
      ∀ c ∈ httpdUrlEncode (requestUrl q), ¬ Marks c := by
  intro h
  have hp := h plainEnvironment (asked [0x2f, quote]) (by decide) quote (by decide +kernel)
  exact hp (.inl rfl)

end FasterConfig.HttpdRedirect
