import FasterConfig.HttpdHead

/-!
# Framing of responses

Pages and redirections come out framed where they fit into the buffer they are
expanded into, and stock errors always. A file does when its size goes through
an `int` and all of it can be read, static data only when the server was
started at a time that is their length, and a path without a slash is not
answered.
-/

set_option autoImplicit false

namespace FasterConfig.HttpdFraming
open FasterConfig.Strings FasterConfig.HttpdVariables FasterConfig.HttpdReadRequest
open FasterConfig.HttpdResponse FasterConfig.LineBlocks FasterConfig.HttpdDispatch
open FasterConfig.HttpdHead
open FasterConfig.HttpdPage (addPageVariables)

variable {H : Type*}

/-! ## Pages and redirections -/

theorem ready_page {status : Text} {headers : List Text} {r : Request} (env : Environment)
    (title message : Text) (h : Ready status headers r) (hl : r.response.responseLength = 0) :
    Sent status (expanded (addPageVariables r.request.vars title message) (cString env.template)).length
      (expanded (addPageVariables r.request.vars title message) (cString env.template))
      (sendHttpPage env title message r) := by
  have hvars : Ready status headers { r with request :=
      { r.request with vars := addPageVariables r.request.vars title message } } :=
    ⟨⟨h.sent, h.headersSent, h.headersText, h.contentType, h.plain⟩, h.response, h.isStatus⟩
  exact ready_output env (cString env.template) hvars hl

def okStatus : Text := ascii "200 Output Follows"

def redirectStatus : Text := ascii "302 " ++ redirectText

def notModifiedStatus : Text := ascii "304 Not Modified"

def deniedStatus : Text := ascii "403 Permission Denied"

def notFoundStatus : Text := ascii "404 Not Found"

def statuses : List Text := [okStatus, redirectStatus, notModifiedStatus, deniedStatus, notFoundStatus]

theorem statuses_fit : ∀ s ∈ statuses, IsStatus s ∧ s.length+1 < HttpdRequest.httpMaxUrl := by
  decide

theorem unsent_response {headers : List Text} {r : Request} (status : Text) (h : Unsent headers r)
    (hs : status ∈ statuses) : Ready status headers (httpdSetResponse (status ++ [newline]) r) where
  toUnsent := ⟨h.sent, h.headersSent, h.headersText, h.contentType, h.plain⟩
  response := strncpy_short _ _ (by
    rw [List.length_append]
    exact (statuses_fit status hs).2)
  isStatus := (statuses_fit status hs).1

theorem addHeader_line (headers msg : Text) (hn : newline ∉ msg)
    (hs : headers.length+2 < httpMaxHeaders) (hm : msg ≠ []) :
    addHeader headers msg = headers ++ (msg.take (httpMaxHeaders-2-headers.length) ++ [newline]) := by
  generalize hsize : httpMaxHeaders-2-headers.length = size
  have hpos : 0 < size := by omega
  have hlast : ¬ (headers ++ msg.take size).getLast? = some newline := by
    intro hl
    have hne : msg.take size ≠ [] := by
      rw [Ne, List.take_eq_nil_iff, not_or]
      exact ⟨Nat.pos_iff_ne_zero.mp hpos, hm⟩
    rw [List.getLast?_append_of_ne_nil _ hne] at hl
    exact hn (List.mem_of_mem_take (List.mem_of_getLast? hl))
  simp only [addHeader, hsize, if_pos hpos, if_neg hlast, List.append_assoc]

theorem ready_location {status : Text} {headers : List Text} {r : Request} (url : Text)
    (h : Ready status headers r) (hn : newline ∉ url)
    (hs : (ended newline headers).length+12 ≤ httpMaxHeaders) :
    ∃ more, Ready status (headers ++ more) (httpdAddHeader (ascii "Location: " ++ url) r) := by
  generalize hsize : httpMaxHeaders-2-(ended newline headers).length = size
  have hname : (ascii "Location: ").length = 10 := by decide
  have htake : (ascii "Location: " ++ url).take size = ascii "Location: " ++ url.take (size-10) := by
    rw [List.take_append, hname, List.take_of_length_le (by omega)]
  have hcut : newline ∉ url.take (size-10) := fun hm => hn (List.mem_of_mem_take hm)
  have hmsg : newline ∉ ascii "Location: " ++ url :=
    fun hm => (List.mem_append.mp hm).elim (by decide) hn
  have hline := addHeader_line (ended newline headers) (ascii "Location: " ++ url) hmsg (by omega)
    (List.append_ne_nil_of_left_ne_nil (by decide) url)
  rw [hsize, htake] at hline
  refine ⟨[ascii "Location: " ++ url.take (size-10)], ⟨h.sent, h.headersSent, ?_, h.contentType, ?_⟩,
    h.response, h.isStatus⟩
  · rw [httpdAddHeader, h.headersText, hline, ended_append, ended_cons, ended_nil]
  · exact plain_append h.plain (plain_single (by decide) hcut)

theorem newline_not_mem_urlFragment (env : Environment) (q : HttpReq) (clientAddr : Inline) :
    newline ∉ urlFragment env q clientAddr := by
  have hurl : newline ∉ HttpdEscape.httpdUrlEncode (requestUrl q) := by
    rw [HttpdEscape.urlEncode_eq_escape]
    intro h
    exact absurd (HttpdEscape.escape_printable _ _ h).1 (by decide)
  have hmac : newline ∉ (env.arpGet clientAddr).elim [] fun mac => ascii "&mac=" ++ mac.val := by
    cases env.arpGet clientAddr with
    | none => exact List.not_mem_nil
    | some mac => exact newline_not_mem_append (by decide) mac.property
  rw [urlFragment]
  apply newline_not_mem_append _ hurl
  apply newline_not_mem_append _ (by decide)
  apply newline_not_mem_append _ hmac
  apply newline_not_mem_append _ clientAddr.property
  apply newline_not_mem_append _ (by decide)
  apply newline_not_mem_append _ (newline_not_mem_decimal env.gwPort)
  apply newline_not_mem_append _ (by decide)
  apply newline_not_mem_append _ env.gwAddress.property
  exact newline_not_mem_append env.htmlreurl.property (by decide)

def redirectUrlMessage (env : Environment) (q : HttpReq) (clientAddr : Inline) : Text :=
  redirectMessage (urlFragment env q clientAddr)

def redirectVars (env : Environment) (q : HttpReq) (clientAddr : Inline) : Variables Text :=
  addPageVariables q.vars redirectText (redirectUrlMessage env q clientAddr)

def redirectPage (env : Environment) (q : HttpReq) (clientAddr : Inline) : Text :=
  expanded (redirectVars env q clientAddr) (cString env.template)

structure Fresh (r : Request) : Prop where
  inside : r.overrun = false
  unsent : ∃ headers, Unsent headers r ∧ (ended newline headers).length+12 ≤ httpMaxHeaders
  empty : r.response.responseLength = 0

theorem httpdSetResponse_request (msg : Text) (r : Request) :
    (httpdSetResponse msg r).request = r.request := rfl

theorem httpdAddHeader_request (msg : Text) (r : Request) :
    (httpdAddHeader msg r).request = r.request := rfl

theorem httpCallback404_page (env : Environment) (r : Request) :
    httpCallback404 env r = sendHttpPage env redirectText
      (redirectUrlMessage env r.request r.clientAddr)
      (httpdAddHeader (ascii "Location: " ++ urlFragment env r.request r.clientAddr)
        (httpdSetResponse (redirectStatus ++ [newline]) r)) := by
  simp only [httpCallback404, httpSendRedirect, Option.getD_some, redirectStatus, redirectUrlMessage]

theorem fresh_redirect {r : Request} (env : Environment) (h : Fresh r) :
    Sent redirectStatus (redirectPage env r.request r.clientAddr).length
      (redirectPage env r.request r.clientAddr) (httpCallback404 env r) := by
  obtain ⟨headers, hunsent, hlen⟩ := h.unsent
  have hready := unsent_response redirectStatus hunsent (by decide)
  obtain ⟨more, hmore⟩ := ready_location _ hready
    (newline_not_mem_urlFragment env r.request r.clientAddr) hlen
  have hpage := ready_page env redirectText (redirectUrlMessage env r.request r.clientAddr) hmore
    h.empty
  rw [httpdAddHeader_request, httpdSetResponse_request] at hpage
  rw [httpCallback404_page, redirectPage, redirectVars]
  exact hpage

theorem fresh_stock {r : Request} (env : Environment) (status : Text) (msgs : List Text) (h : Fresh r)
    (hs : status ∈ statuses) :
    Sent status 0 msgs.flatten (sendError env none (status ++ [newline]) msgs r) := by
  obtain ⟨headers, hunsent, -⟩ := h.unsent
  exact sent_texts msgs (ready_headers env 0 0 (unsent_response status hunsent hs))

theorem redirect_vars (env : Environment) (r : Request) :
    (httpCallback404 env r).request.vars = redirectVars env r.request r.clientAddr := by
  rw [httpCallback404_page, sendHttpPage, httpdOutput_request, httpdAddHeader_request,
    httpdSetResponse_request, redirectVars]

/-! ## Room for a page -/

/-- Every name leaves room for its NUL, and what is kept and put in for that of the page. -/
def OutputFits (vars : Variables Text) (msg : Text) : Prop :=
  HttpdOutput.ShortNames msg ∧
    HttpdOutput.width (HttpdOutput.pieces (firstValue vars) 0 msg) < HttpdOutput.httpMaxLen

theorem overruns_iff (vars : Variables Text) (msg : Text) :
    overruns vars msg = false ↔ OutputFits vars msg := by
  rw [overruns, decide_eq_false_iff_not, not_not]
  exact HttpdOutput.page_inside_iff (firstValue vars) msg

theorem output_overrun_iff {r : Request} (env : Environment) (msg : Text) (h : r.overrun = false) :
    (httpdOutput env msg r).overrun = false ↔ OutputFits r.request.vars msg := by
  rw [httpdOutput_overrun, h, Bool.false_or, overruns_iff]

def PageFits (env : Environment) (vars : Variables Text) (title message : Text) : Prop :=
  OutputFits (addPageVariables vars title message) (cString env.template)

theorem page_inside_iff {r : Request} (env : Environment) (title message : Text) (h : r.overrun = false) :
    (sendHttpPage env title message r).overrun = false ↔ PageFits env r.request.vars title message :=
  output_overrun_iff env (cString env.template) h

def RedirectFits (env : Environment) (q : HttpReq) (clientAddr : Inline) : Prop :=
  PageFits env q.vars redirectText (redirectUrlMessage env q clientAddr)

theorem redirect_inside_iff {r : Request} (env : Environment) (h : r.overrun = false) :
    (httpCallback404 env r).overrun = false ↔ RedirectFits env r.request r.clientAddr := by
  rw [httpCallback404_page]
  exact page_inside_iff env redirectText _ h

/-- A stock response is not expanded. -/
def ErrorFits (env : Environment) (q : HttpReq) (clientAddr : Inline) : Option ErrorFunction → Prop
  | none => True
  | some .httpCallback404 => RedirectFits env q clientAddr

/-! ## Errors -/

theorem texts_overrun (msgs : List Text) (r : Request) :
    (msgs.foldl (fun r msg => sendText msg r) r).overrun = r.overrun := by
  induction msgs generalizing r with
  | nil => rfl
  | cons msg msgs ih => exact ih (sendText msg r)

theorem error_answered_iff {r : Request} (env : Environment) (errorFunction : Option ErrorFunction)
    (status : Text) (msgs : List Text) (h : Fresh r) (hs : status ∈ statuses)
    (hb : ascii "304" <+: status → msgs.flatten = []) :
    Answered (sendError env errorFunction (status ++ [newline]) msgs r) ↔
      ErrorFits env r.request r.clientAddr errorFunction := by
  rw [answered_iff]
  cases errorFunction with
  | none =>
    refine iff_of_true ⟨?_, (fresh_stock env status msgs h hs).framed_iff.mpr ⟨.inl (Int.le_refl 0), hb⟩⟩
      trivial
    exact (texts_overrun msgs _).trans ((sendHeaders_overrun env 0 0 _).trans h.inside)
  | some f =>
    cases f with
    | httpCallback404 =>
      have hframed := (fresh_redirect env h).framed_iff.mpr
        ⟨.inr rfl, fun h304 => absurd h304 (by decide)⟩
      exact (and_iff_left hframed).trans (redirect_inside_iff env h.inside)

theorem send404_answered_iff {r : Request} (env : Environment) (server : Server H) (h : Fresh r) :
    Answered (send404 env server r) ↔ ErrorFits env r.request r.clientAddr server.errorFunction404 :=
  error_answered_iff env server.errorFunction404 notFoundStatus _ h (by decide)
    fun h304 => absurd h304 (by decide)

theorem send403_answered_iff {r : Request} (env : Environment) (server : Server H) (h : Fresh r) :
    Answered (send403 env server r) ↔ ErrorFits env r.request r.clientAddr server.errorFunction403 :=
  error_answered_iff env server.errorFunction403 deniedStatus _ h (by decide)
    fun h304 => absurd h304 (by decide)

theorem send304_answered_iff {r : Request} (env : Environment) (server : Server H) (h : Fresh r) :
    Answered (send304 env server r) ↔ ErrorFits env r.request r.clientAddr server.errorFunction304 :=
  error_answered_iff env server.errorFunction304 notModifiedStatus [] h (by decide) fun _ => rfl

/-! ## Static data -/

/-- Static data fit, and what they expand to has the length of the number that is sent for it.
Where the client has them already, they come behind a head without a number or behind a page. -/
def StaticFits (env : Environment) (server : Server H) (r : Request) (data : Text) : Prop :=
  if checkLastModified env server.startTime r = true then OutputFits r.request.vars data ∧
    (server.startTime ≤ 0 ∨ server.startTime = (expanded r.request.vars data).length)
  else match server.errorFunction304 with
    | none => OutputFits r.request.vars data ∧ expanded r.request.vars data = []
    | some .httpCallback404 => RedirectFits env r.request r.clientAddr ∧
        OutputFits (redirectVars env r.request r.clientAddr) data ∧
          (redirectPage env r.request r.clientAddr = [] ∨
            expanded (redirectVars env r.request r.clientAddr) data = [])

theorem stock_then_static {r : Request} (env : Environment) (n t : ℤ) (data : Text) (hf : Fresh r) :
    Answered (httpdOutput env data (sendHeaders env n t
      (sendError env none (ascii "304 Not Modified\n") [] r))) ↔
      OutputFits r.request.vars data ∧ expanded r.request.vars data = [] := by
  have hline : ascii "304 Not Modified\n" = notModifiedStatus ++ [newline] := by decide
  have h304 : ascii "304" <+: notModifiedStatus := by decide
  have hstock := fresh_stock env notModifiedStatus [] hf (by decide)
  have hrequest : (sendError env none (notModifiedStatus ++ [newline]) [] r).request = r.request :=
    sendHeaders_request env 0 0 _
  have hinside : (sendError env none (notModifiedStatus ++ [newline]) [] r).overrun = false :=
    (sendHeaders_overrun env 0 0 _).trans hf.inside
  have hsent := sent_output env data hstock
  rw [hrequest, List.flatten_nil, List.nil_append] at hsent
  rw [answered_iff, hline, sent_headers env n t hstock, output_overrun_iff env data hinside, hrequest,
    hsent.framed_iff, and_iff_right (Or.inl (Int.le_refl (0 : ℤ))), forall_prop_of_true h304]

theorem page_then_static {r : Request} (env : Environment) (n t : ℤ) (data : Text) (hf : Fresh r) :
    Answered (httpdOutput env data (sendHeaders env n t (httpCallback404 env r))) ↔
      RedirectFits env r.request r.clientAddr ∧
        OutputFits (redirectVars env r.request r.clientAddr) data ∧
          (redirectPage env r.request r.clientAddr = [] ∨
            expanded (redirectVars env r.request r.clientAddr) data = []) := by
  have hpage := fresh_redirect env hf
  have hsent := sent_output env data hpage
  rw [redirect_vars] at hsent
  have hinside : (httpdOutput env data (httpCallback404 env r)).overrun = false ↔
      RedirectFits env r.request r.clientAddr ∧ OutputFits (redirectVars env r.request r.clientAddr) data := by
    rw [httpdOutput_overrun, Bool.or_eq_false_iff, redirect_inside_iff env hf.inside, redirect_vars,
      overruns_iff]
  rw [answered_iff, sent_headers env n t hpage, hinside, hsent.framed_iff,
    and_iff_left fun h304 => absurd h304 (by decide), and_assoc, ← List.length_eq_zero_iff,
    ← List.length_eq_zero_iff, List.length_append]
  refine and_congr_right fun _ => and_congr_right fun _ => ?_
  omega

theorem static_answered_iff {status : Text} {headers : List Text} {r : Request}
    (env : Environment) (server : Server H) (data : Text) (h : Ready status headers r) (hf : Fresh r)
    (hs : ¬ ascii "304" <+: status) :
    Answered (sendStatic env server data r) ↔ StaticFits env server r data := by
  rw [sendStatic, StaticFits]
  by_cases hm : checkLastModified env server.startTime r = true
  · rw [if_pos hm, if_pos hm]
    have hsent := sent_output env data (ready_headers env server.startTime (toInt data.length) h)
    have hinside := output_overrun_iff env data
      ((sendHeaders_overrun env server.startTime (toInt data.length) r).trans hf.inside)
    rw [sendHeaders_request] at hsent hinside
    rw [List.nil_append] at hsent
    rw [answered_iff, hinside, hsent.framed_iff, and_iff_left fun h304 => absurd h304 hs]
    exact and_congr_right fun _ => or_congr_right eq_comm
  · rw [if_neg hm, if_neg hm, send304]
    cases server.errorFunction304 with
    | none => exact stock_then_static env server.startTime (toInt data.length) data hf
    | some f =>
      cases f with
      | httpCallback404 => exact page_then_static env server.startTime (toInt data.length) data hf

/-! ## Files -/

/-- The size that is sent, if any is, is that of what can be read. -/
def SizeFits (f : File) : Prop := toInt f.stSize ≤ 0 ∨ toInt f.stSize = f.content.length

/-- What is sent in the place of the file fits where it is not there or the client has it. -/
def FileFits (env : Environment) (server : Server H) (r : Request) (path : Text) : Prop :=
  match env.files path with
  | none => ErrorFits env r.request r.clientAddr server.errorFunction404
  | some f =>
    if checkLastModified env (toInt f.stMtime) r = true then SizeFits f
    else ErrorFits env r.request r.clientAddr server.errorFunction304

theorem regular_fits_iff (f : File) (h : f.stSize = f.content.length) :
    SizeFits f ↔ f.content.length < 2^31 ∨ toInt f.stSize ≤ 0 := by
  rw [SizeFits, h, toInt, Int.bmod]
  split_ifs <;> omega

theorem directory_fits_iff (f : File) (h : f.content = []) : SizeFits f ↔ toInt f.stSize ≤ 0 := by
  rw [SizeFits, h, List.length_nil]
  omega

theorem newline_not_mem_contentTypeOf (path contentType : Text) (h : newline ∉ contentType) :
    newline ∉ contentTypeOf path contentType := by
  have htypes : ∀ p ∈ suffixTypes, newline ∉ p.2 := by decide
  rw [contentTypeOf]
  cases strrchr HttpdRequest.dot path with
  | none => exact h
  | some s =>
    simp only
    generalize suffixTypes = types at htypes
    induction types generalizing contentType with
    | nil => exact h
    | cons p ps ih =>
      rw [List.foldl_cons]
      apply ih
      · by_cases hp : strcasecmp (HttpdRequest.dot::s.2) p.1 = true
        · rw [if_pos hp]
          exact htypes p List.mem_cons_self
        · rw [if_neg hp]
          exact h
      · exact fun q hq => htypes q (List.mem_cons_of_mem p hq)

theorem ready_setContentType {status : Text} {headers : List Text} {r : Request} (path : Text)
    (h : Ready status headers r) : Ready status headers (setContentType path r) :=
  ⟨⟨h.sent, h.headersSent, h.headersText, newline_not_mem_contentTypeOf path _ h.contentType,
    h.plain⟩, h.response, h.isStatus⟩

theorem fresh_ready {status : Text} {headers : List Text} {r : Request} (h : Ready status headers r)
    (hi : r.overrun = false) (hl : (ended newline headers).length+12 ≤ httpMaxHeaders)
    (he : r.response.responseLength = 0) : Fresh r := ⟨hi, ⟨headers, h.toUnsent, hl⟩, he⟩

theorem catFile_overrun (content : Text) (r : Request) : (catFile content r).overrun = r.overrun := by
  fun_induction catFile content r with
  | case1 => rfl
  | case2 content r hc buf ih => exact ih

theorem file_answered_iff {status : Text} {headers : List Text} {r : Request}
    (env : Environment) (server : Server H) (path : Text) (h : Ready status headers r)
    (hi : r.overrun = false) (hl : (ended newline headers).length+12 ≤ httpMaxHeaders)
    (he : r.response.responseLength = 0) (hs : ¬ ascii "304" <+: status) :
    Answered (sendFile env server path r) ↔ FileFits env server r path := by
  have hready := ready_setContentType path h
  have hfresh := fresh_ready hready hi hl he
  have hmod : ∀ t, checkLastModified env t (setContentType path r) = checkLastModified env t r := fun _ => rfl
  rw [sendFile, FileFits]
  cases env.files path with
  | none => exact send404_answered_iff env server hfresh
  | some f =>
    simp only
    by_cases hm : checkLastModified env (toInt f.stMtime) r = true
    · have hsent := sent_catFile f.content
        (ready_headers env (toInt f.stSize) (toInt f.stMtime) hready)
      have hinside := (catFile_overrun f.content
        (sendHeaders env (toInt f.stSize) (toInt f.stMtime) (setContentType path r))).trans
          ((sendHeaders_overrun env _ _ _).trans hfresh.inside)
      rw [List.nil_append] at hsent
      rw [if_pos ((hmod _).trans hm), if_pos hm, answered_iff, and_iff_right hinside, hsent.framed_iff,
        and_iff_left fun h304 => absurd h304 hs]
      exact or_congr_right eq_comm
    · rw [if_neg fun hc => hm ((hmod _).symm.trans hc), if_neg hm]
      exact send304_answered_iff env server hfresh

/-! ## All requests -/

def serverLine : Text := ascii "Server: " ++ ascii "Seeed Technologies Embedded Server"

theorem ready_read (q : HttpReq) (ifModified : Text) (clientAddr : Inline) :
    Ready okStatus [serverLine] (.read q ifModified clientAddr) where
  sent := rfl
  headersSent := rfl
  headersText := by
    have hline : ascii "Server: Seeed Technologies Embedded Server\n" = ended newline [serverLine] := by
      decide
    exact hline
  contentType := by
    have htype : newline ∉ ascii "text/html" := by decide
    exact htype
  plain := plain_single (by decide) (by decide)
  response := by
    have hstatus : ascii "200 Output Follows\n" = okStatus ++ [newline] := by decide
    exact hstatus
  isStatus := (statuses_fit okStatus (by decide)).1

theorem fresh_zeroed (clientAddr : Inline) : Fresh (.zeroed clientAddr) where
  inside := rfl
  unsent := ⟨[], ⟨rfl, rfl, rfl, List.not_mem_nil, fun _ hl => absurd hl List.not_mem_nil⟩, by decide⟩
  empty := rfl

theorem not_framed_nil : ¬ Framed [] := by
  rintro ⟨status, headers, body, h⟩
  have hb := h.bytes
  rw [block_cons, List.append_assoc] at hb
  exact absurd hb.symm (by simp [statusLine])

/-- What an outcome takes for its response to be framed. -/
def Fits (env : Environment) (server : Server H) (r : Request) : Outcome H → Prop
  | .nothing => False
  | .call function =>
    PageFits env r.request.vars (server.page function).1 (server.page function).2
  | .sendStatic data => StaticFits env server r data
  | .sendFile path => FileFits env server r path
  | .sendDirectoryEntry path entryName => FileFits env server r (entryPath path entryName)
  | .send404 => ErrorFits env r.request r.clientAddr server.errorFunction404

theorem serve_answered_iff {status : Text} {headers : List Text} {r : Request}
    (env : Environment) (server : Server H) (o : Outcome H) (h : Ready status headers r)
    (hi : r.overrun = false) (hl : (ended newline headers).length+12 ≤ httpMaxHeaders)
    (he : r.response.responseLength = 0) (hs : ¬ ascii "304" <+: status) :
    Answered (serve env server r o) ↔ Fits env server r o := by
  have hfresh := fresh_ready h hi hl he
  cases o with
  | nothing =>
    rw [serve, answered_iff, h.sent]
    exact iff_of_false (fun hn => not_framed_nil hn.2) not_false
  | call function =>
    have hpage := ready_page env (server.page function).1 (server.page function).2 h he
    have hframed := hpage.framed_iff.mpr ⟨.inr rfl, fun h304 => absurd h304 hs⟩
    rw [answered_iff]
    exact (and_iff_left hframed).trans (page_inside_iff env _ _ hi)
  | sendStatic data => exact static_answered_iff env server data h hfresh hs
  | sendFile path => exact file_answered_iff env server path h hi hl he hs
  | sendDirectoryEntry path entryName =>
    exact file_answered_iff env server (entryPath path entryName) h hi hl he hs
  | send404 => exact send404_answered_iff env server hfresh

theorem length_serverLine : (ended newline [serverLine]).length+12 ≤ httpMaxHeaders := by decide

theorem request_answered_iff (env : Environment) (server : Server H) (q : HttpReq)
    (ifModified : Text) (clientAddr : Inline) :
    Answered (httpdProcessRequest env server (.read q ifModified clientAddr)) ↔
      Fits env server (.read q ifModified clientAddr)
        (HttpdDispatch.httpdProcessRequest server.content q.path) :=
  serve_answered_iff env server _ (ready_read q ifModified clientAddr) rfl length_serverLine rfl
    (by decide)

/-- A refused connection and a request are answered by framed responses exactly when what they
lead to fits. -/
theorem responses_framed_iff (env : Environment) (server : Server H) (q : HttpReq)
    (ifModified : Text) (clientAddr : Inline) :
    Answered (send403 env server (.zeroed clientAddr)) ∧
      Answered (httpdProcessRequest env server (.read q ifModified clientAddr)) ↔
    ErrorFits env .fresh clientAddr server.errorFunction403 ∧
      Fits env server (.read q ifModified clientAddr)
        (HttpdDispatch.httpdProcessRequest server.content q.path) := by
  rw [send403_answered_iff env server (fresh_zeroed clientAddr)]
  exact and_congr_right fun _ => request_answered_iff env server q ifModified clientAddr

def someday : Inline := ⟨ascii "Thu, 24 Nov 2016 15:06:40 GMT", by decide⟩

def localhost : Inline := ⟨ascii "127.0.0.1", by decide⟩

def plainEnvironment : Environment :=
  { date := someday
    timeString := fun _ => someday
    template := ascii "$message\n"
    htmlreurl := ⟨ascii "http://192.168.100.1/fasterconfig", by decide⟩
    gwAddress := ⟨ascii "192.168.100.1", by decide⟩
    gwPort := 2049
    arpGet := fun _ => none
    files := fun _ => none }

def staticServer : Server Callback :=
  { start 1480000000 with content := ⟨[⟨ascii "hello", .static (ascii "Hello\n"), 0⟩], .null⟩ }

def repeatingEnvironment : Environment :=
  { plainEnvironment with template := (List.replicate 103 (ascii "$v")).flatten }

def hundredLetters : Text := ascii "GET /fasterconfig?v=" ++ List.replicate 100 0x78 ++ ascii " HTTP/1.0"

/-- `GET foo` is read and not answered; six octets of static data are sent behind a head that
announces 1480000000; a page of 10300 octets overruns its buffer. -/
theorem slashless_static_and_page_not_framed :
    (∃ q, httpdReadRequest [] (fun _ => 0) [ascii "GET foo HTTP/1.0"] = some q ∧
      ¬ Answered (httpdProcessRequest plainEnvironment (start 1480000000) (.read q [] localhost))) ∧
    (∃ q, httpdReadRequest [] (fun _ => 0) [ascii "GET /hello HTTP/1.0"] = some q ∧
      ¬ Answered (httpdProcessRequest plainEnvironment staticServer (.read q [] localhost))) ∧
    ∃ q, httpdReadRequest [] (fun _ => 0) [hundredLetters] = some q ∧
      ¬ Answered (httpdProcessRequest repeatingEnvironment (start 1480000000) (.read q [] localhost)) := by
  refine ⟨?_, ?_, ?_⟩
  · have hpath : (httpdReadRequest [] (fun _ => 0) [ascii "GET foo HTTP/1.0"]).map HttpReq.path =
        some (ascii "foo") := by decide +kernel
    have hdispatch : HttpdDispatch.httpdProcessRequest (start 1480000000).content (ascii "foo") =
        .nothing := by decide +kernel
    obtain ⟨q, hq, hfoo⟩ := Option.map_eq_some_iff.mp hpath
    refine ⟨q, hq, fun h => ?_⟩
    have hfits := (request_answered_iff _ _ _ _ _).mp h
    rw [hfoo, hdispatch] at hfits
    exact hfits
  · have hread : (httpdReadRequest [] (fun _ => 0) [ascii "GET /hello HTTP/1.0"]).map
        (fun q => (q.path, q.vars)) = some (ascii "/hello", []) := by decide +kernel
    have hdispatch : HttpdDispatch.httpdProcessRequest staticServer.content (ascii "/hello") =
        .sendStatic (ascii "Hello\n") := by decide +kernel
    have hlength : ¬ ((1480000000 : ℤ) ≤ 0 ∨
        (1480000000 : ℤ) = (expanded [] (ascii "Hello\n")).length) := by decide +kernel
    have hdate : someday.val ≠ [] := by decide
    obtain ⟨q, hq, hhello⟩ := Option.map_eq_some_iff.mp hread
    refine ⟨q, hq, fun h => ?_⟩
    have hfits := (request_answered_iff _ _ _ _ _).mp h
    obtain ⟨hp, hv⟩ := Prod.mk.inj hhello
    have hnew : checkLastModified plainEnvironment staticServer.startTime (.read q [] localhost) =
        true := decide_eq_true hdate
    have hvars : (Request.read q [] localhost).request.vars = [] := hv
    rw [hp, hdispatch, Fits, StaticFits, if_pos hnew, hvars] at hfits
    exact hlength hfits.2
  · have hread : (httpdReadRequest [] (fun _ => 0) [hundredLetters]).map (fun q => (q.path, q.vars)) =
        some (ascii "/fasterconfig", [⟨ascii "v", List.replicate 100 0x78, []⟩]) := by decide +kernel
    have hdispatch : HttpdDispatch.httpdProcessRequest (start 1480000000).content
        (ascii "/fasterconfig") = .call .httpCallbackFasterconfig := by decide +kernel
    have hwide : ¬ PageFits repeatingEnvironment [⟨ascii "v", List.replicate 100 0x78, []⟩]
        (callbackPage .httpCallbackFasterconfig).1 (callbackPage .httpCallbackFasterconfig).2 :=
      fun h => absurd h.2 (by decide +kernel)
    obtain ⟨q, hq, hletters⟩ := Option.map_eq_some_iff.mp hread
    refine ⟨q, hq, fun h => ?_⟩
    have hfits := (request_answered_iff _ _ _ _ _).mp h
    obtain ⟨hp, hv⟩ := Prod.mk.inj hletters
    have hvars : (Request.read q [] localhost).request.vars = [⟨ascii "v", List.replicate 100 0x78, []⟩] := hv
    rw [hp, hdispatch, Fits, hvars] at hfits
    exact hwide hfits

end FasterConfig.HttpdFraming
